import MeshSharding.Rule.Draft

/-! The identity rule. Dimension `i` of every tensor has the factor `i`, so the rule verifies for
any number of tensors of the shape. -/
namespace MeshSharding

namespace Mapping

/-- Of `n` dimensions, the first `k` have their own factor, and the others have none yet. -/
def diagonal (n k : Nat) : Mapping := ⟨(List.range n).map fun i => if i < k then [i] else []⟩

@[simp] theorem diagonal_rank (n k : Nat) : (diagonal n k).rank = n := by simp [diagonal, rank]

theorem place_diagonal (n k size : Nat) :
    (diagonal n k).place k k size = diagonal n (k + 1) := by
  rw [place, diagonal, diagonal, Mapping.mk.injEq]
  refine List.ext_getElem (by simp) fun i hi _ => ?_
  simp only [List.getElem_modify, List.getElem_map, List.getElem_range]
  by_cases h : k = i
  · subst h
    simp
  · have hiff : i < k + 1 ↔ i < k := by omega
    simp [h, hiff]

theorem diagonal_self (n : Nat) : (diagonal n n).dims = (List.range n).map fun i => [i] :=
  List.map_congr_left fun _ hi => if_pos (List.mem_range.1 hi)

theorem fillDims_eq_self {next : Nat} {dims : List (List Nat)} (h : ∀ fs ∈ dims, fs ≠ []) :
    fillDims next dims = (dims, next) := by
  induction dims with
  | nil => rfl
  | cons fs rest ih =>
    rw [List.forall_mem_cons] at h
    rw [fillDims, if_neg (by simpa using h.1), ih h.2]

theorem fillAll_eq_self {next : Nat} {mappings : List Mapping}
    (h : ∀ m ∈ mappings, ∀ fs ∈ m.dims, fs ≠ []) : fillAll next mappings = (mappings, next) := by
  induction mappings with
  | nil => rfl
  | cons m rest ih =>
    rw [List.forall_mem_cons] at h
    rw [fillAll, fillDims_eq_self h.1, ih h.2]

end Mapping

namespace Draft

open Mapping

/-- The first `sizes.length` of `n` dimensions of every tensor have their factors. -/
def diagonal (n operands results : Nat) (sizes : List Nat) : Draft :=
  ⟨sizes.map fun size => ⟨size, .passThrough, false⟩,
    List.replicate operands (Mapping.diagonal n sizes.length),
    List.replicate results (Mapping.diagonal n sizes.length)⟩

theorem blank_replicate (shape : Shape) (operands results : Nat) :
    blank ⟨List.replicate operands shape, List.replicate results shape⟩
      = diagonal shape.length operands results [] := by
  have hmapping : (⟨shape.map fun _ => []⟩ : Mapping) = Mapping.diagonal shape.length 0 := by
    have hempty : ∀ i, (if i < 0 then [i] else []) = ([] : List Nat) := fun _ => rfl
    simp only [Mapping.diagonal, hempty, List.map_const', List.length_range]
  simp only [blank, diagonal, List.map_replicate, List.map_nil, List.length_nil, hmapping]

theorem addToAll_diagonal (n operands results size : Nat) (sizes : List Nat) :
    (diagonal n operands results sizes).addToAll sizes.length ⟨size, .passThrough, false⟩
      = diagonal n operands results (sizes ++ [size]) := by
  have hcount : (diagonal n operands results sizes).factorCount = sizes.length := by
    simp [diagonal, factorCount]
  rw [addToAll, hcount]
  simp [diagonal, place_diagonal]

theorem addDimsFrom_diagonal (n operands results : Nat) (sizes rest : List Nat) :
    addDimsFrom (fun _ _ => some (.passThrough, false)) sizes.length
        (diagonal n operands results sizes) rest
      = diagonal n operands results (sizes ++ rest) := by
  induction rest generalizing sizes with
  | nil => rw [List.append_nil]; rfl
  | cons size rest ih =>
    rw [addDimsFrom]
    dsimp only
    rw [addToAll_diagonal]
    have hnext := ih (sizes ++ [size])
    rwa [List.length_append, List.append_assoc] at hnext

theorem finish_diagonal (operands results : Nat) (shape : Shape) :
    (diagonal shape.length operands results shape).finish
      = Rule.ofSizes shape (List.replicate operands (Mapping.diagonal shape.length shape.length))
          (List.replicate results (Mapping.diagonal shape.length shape.length)) := by
  have hfull : ∀ k, ∀ m ∈ List.replicate k (Mapping.diagonal shape.length shape.length),
      ∀ fs ∈ m.dims, fs ≠ [] := by
    intro k m hm fs hfs
    rw [List.eq_of_mem_replicate hm, diagonal_self] at hfs
    obtain ⟨_, -, rfl⟩ := List.mem_map.1 hfs
    simp
  rw [finish, diagonal]
  dsimp only
  rw [fillAll_eq_self (hfull operands), fillAll_eq_self (hfull results)]
  simp [Rule.ofSizes]

end Draft

namespace Rule

open Mapping

theorem identity_eq (shape : Shape) {operands results : Nat} (h : 0 < operands + results) :
    identity shape operands results
      = ofSizes shape (List.replicate operands (diagonal shape.length shape.length))
          (List.replicate results (diagonal shape.length shape.length)) := by
  have hshape : ((List.replicate results shape).head?.or
      (List.replicate operands shape).head?).getD [] = shape := by
    cases results with
    | zero =>
      obtain ⟨n, rfl⟩ := Nat.exists_eq_succ_of_ne_zero (Nat.ne_of_gt h)
      rfl
    | succ n => rfl
  unfold identity pointwise
  dsimp only
  rw [hshape, Draft.blank_replicate, Draft.addPointwise, Draft.addDims, ← Draft.finish_diagonal]
  exact congrArg Draft.finish (Draft.addDimsFrom_diagonal _ operands results [] shape)

theorem mapping?_identity (shape : Shape) {operands results i : Nat} (hi : i < operands) :
    (identity shape operands results).mapping? ⟨.operand, i⟩
      = some (diagonal shape.length shape.length) := by
  rw [identity_eq shape (Nat.add_pos_left (Nat.zero_lt_of_lt hi) results)]
  exact List.getElem?_replicate_of_lt hi

/-- Every dimension has a factor that flows freely. -/
theorem factors_identity (shape : Shape) {operands results : Nat} (h : 0 < operands + results) :
    (identity shape operands results).factors
      = shape.map fun size => ⟨size, .passThrough, false⟩ := by
  rw [identity_eq shape h]
  rfl

variable {r : Rule} {t : TensorRef}

/-- From dimension `k` on, each dimension has its own factor, of its size. -/
theorem checkDims_diagonal {shape : Shape} (hr : r.sizes = shape) {k : Nat} {seen : List Nat}
    (hseen : ∀ f ∈ seen, f < k) :
    r.checkDims t k seen ((List.range' k (shape.drop k).length).map fun i => [i]) (shape.drop k)
      = .ok () := by
  generalize hrest : shape.drop k = rest
  induction rest generalizing k seen with
  | nil => rfl
  | cons size rest ih =>
    have hsize : shape[k]? = some size := by rw [← List.head?_drop, hrest]; rfl
    have hof : r.sizeOf? k = some size := by
      rw [← hr, sizes, List.getElem?_map] at hsize
      exact hsize
    have hknown : ¬ r.factorCount ≤ k := by
      have hlt := (List.getElem?_eq_some_iff.1 hsize).1
      rw [← hr, sizes, List.length_map] at hlt
      exact Nat.not_le.2 hlt
    have hfresh : k ∉ seen := fun hmem => Nat.lt_irrefl k (hseen k hmem)
    have hproduct : r.productOf [k] = size := by simp [productOf, hof]
    have hnext : shape.drop (k + 1) = rest := by rw [← List.tail_drop, hrest, List.tail_cons]
    rw [List.length_cons, List.range'_succ, List.map_cons, checkDims]
    simp only [List.isEmpty_cons, Bool.false_eq_true, if_false, checkFactors, hknown, hfresh, bind,
      Except.bind, hproduct, ne_eq, not_true_eq_false, false_and]
    exact ih (fun f hf => by
      rcases List.mem_cons.1 hf with rfl | hf
      · exact Nat.lt_succ_self _
      · exact Nat.lt_succ_of_lt (hseen f hf)) hnext

theorem checkSide_replicate {side : Side} {n : Nat} {shape : Shape} (hr : r.sizes = shape)
    (hm : r.mappings side = List.replicate n (diagonal shape.length shape.length)) :
    r.checkSide side (List.replicate n shape) = .ok () := by
  have htensors : ∀ index, r.checkTensors side index
      (List.replicate n (diagonal shape.length shape.length)) (List.replicate n shape)
        = .ok () := by
    clear hm
    induction n with
    | zero => exact fun _ => rfl
    | succ n ih =>
      intro index
      have hdims : r.checkDims ⟨side, index⟩ 0 [] (diagonal shape.length shape.length).dims shape
          = .ok () := by
        rw [diagonal_self, List.range_eq_range']
        exact checkDims_diagonal (k := 0) hr (by simp)
      rw [List.replicate_succ, List.replicate_succ, checkTensors, diagonal_rank,
        if_neg (by simp), hdims]
      exact ih (index + 1)
  rw [checkSide, hm, if_neg (by simp)]
  exact htensors 0

/-- Tensors of one shape verify the identity rule. -/
theorem verify_identity (shape : Shape) (operands results : Nat) (h : 0 < operands + results) :
    (identity shape operands results).verify
      ⟨List.replicate operands shape, List.replicate results shape⟩ = .ok () := by
  have hsizes : (identity shape operands results).sizes = shape := by
    rw [sizes, factors_identity shape h]
    simp [Function.comp_def]
  refine bind_eq_ok_iff.2 ⟨(), checkSide_replicate hsizes ?_, checkSide_replicate hsizes ?_⟩ <;>
    rw [identity_eq shape h] <;> rfl

end Rule
end MeshSharding
