import Mathlib.Data.List.Nodup
import MeshSharding.Rule.Verify

/-! What it means for a rule to verify: every mapping has the rank of its shape and gives its
dimensions distinct factors of the rule. -/
namespace MeshSharding
namespace Mapping

theorem positionFrom_eq_none {f dim : Nat} {dims : List (List Nat)} :
    positionFrom f dim dims = none ↔ f ∉ dims.flatten := by
  induction dims generalizing dim with
  | nil => simp [positionFrom]
  | cons fs dims ih =>
    rw [positionFrom]
    cases h : fs.idxOf? f with
    | none => simp [ih, List.idxOf?_eq_none_iff.1 h]
    | some i =>
      have hmem : f ∈ fs := Decidable.byContradiction fun hf => by
        rw [List.idxOf?_eq_none_iff.2 hf] at h
        cases h
      simp [hmem]

theorem positionFrom_eq_some {f first dim place : Nat} {dims : List (List Nat)}
    (h : positionFrom f first dims = some (dim, place)) :
    first ≤ dim ∧ ∃ fs, dims[dim - first]? = some fs ∧ fs[place]? = some f := by
  induction dims generalizing first with
  | nil => cases h
  | cons fs dims ih =>
    rw [positionFrom] at h
    split at h
    · rename_i i hi
      cases h
      refine ⟨Nat.le_refl _, fs, by simp, ?_⟩
      rw [List.idxOf?, List.findIdx?_eq_some_iff_getElem] at hi
      obtain ⟨hlt, heq, -⟩ := hi
      rw [List.getElem?_eq_getElem hlt, eq_of_beq heq]
    · obtain ⟨hle, fs', hfs', hplace⟩ := ih h
      obtain ⟨n, rfl⟩ := Nat.exists_eq_add_of_le hle
      exact ⟨by omega, fs', by rw [← hfs', show first + 1 + n - first = n + 1 by omega,
        Nat.add_sub_cancel_left, List.getElem?_cons_succ], hplace⟩

/-- A dimension has the factor at the place where it is found. -/
theorem positionOf_eq_some {mapping : Mapping} {f dim place : Nat}
    (h : mapping.positionOf f = some (dim, place)) :
    ∃ fs, mapping.dims[dim]? = some fs ∧ fs[place]? = some f :=
  (positionFrom_eq_some h).2

theorem factorsOf_eq {mapping : Mapping} {dim : Nat} {fs : List Nat}
    (h : mapping.dims[dim]? = some fs) : mapping.factorsOf dim = fs := by
  rw [factorsOf, List.getD_eq_getElem?_getD, h, Option.getD_some]

/-- Of distinct factors, each is in one dimension only. -/
theorem index_eq_of_mem {mapping : Mapping} (hn : mapping.dims.flatten.Nodup) {f i j : Nat}
    {fs gs : List Nat} (hi : mapping.dims[i]? = some fs) (hf : f ∈ fs)
    (hj : mapping.dims[j]? = some gs) (hg : f ∈ gs) : i = j := by
  obtain ⟨hlti, rfl⟩ := List.getElem?_eq_some_iff.1 hi
  obtain ⟨hltj, rfl⟩ := List.getElem?_eq_some_iff.1 hj
  have hapart := List.pairwise_iff_getElem.1 (List.nodup_flatten.1 hn).2
  rcases Nat.lt_trichotomy i j with hlt | heq | hlt
  · exact absurd hg (hapart i j hlti hltj hlt hf)
  · exact heq
  · exact absurd hf (hapart j i hltj hlti hlt hg)

theorem has_iff {mapping : Mapping} {f : Nat} :
    mapping.has f = true ↔ f ∈ mapping.dims.flatten := by
  rw [has, positionOf, Option.isSome_iff_ne_none, ne_eq, positionFrom_eq_none,
    Decidable.not_not]

end Mapping

namespace Rule

variable {r : Rule} {t : TensorRef}

/-- The mapping cuts a tensor of the shape into distinct factors of the rule. -/
structure Maps (r : Rule) (mapping : Mapping) (shape : Shape) : Prop where
  rank : mapping.rank = shape.length
  mapped : ∀ fs ∈ mapping.dims, fs ≠ []
  nodup : mapping.dims.flatten.Nodup
  known : ∀ f ∈ mapping.dims.flatten, f < r.factorCount

theorem checkFactors_eq_ok {seen seen' fs : List Nat}
    (h : r.checkFactors t seen fs = .ok seen') :
    fs.Nodup ∧ (∀ f ∈ fs, f < r.factorCount ∧ f ∉ seen) ∧
      ∀ f, f ∈ seen' ↔ f ∈ fs ∨ f ∈ seen := by
  induction fs generalizing seen with
  | nil => cases h; simp
  | cons f rest ih =>
    rw [checkFactors] at h
    split at h
    · cases h
    · split at h
      · cases h
      · rename_i hlt hseen
        obtain ⟨hnodup, hrest, hmem⟩ := ih h
        refine ⟨?_, ?_, fun g => ?_⟩
        · exact List.nodup_cons.2 ⟨fun hf => (hrest f hf).2 (by simp), hnodup⟩
        · intro g hg
          rcases List.mem_cons.1 hg with rfl | hg
          · exact ⟨by omega, hseen⟩
          · exact ⟨(hrest g hg).1, fun hs => (hrest g hg).2 (by simp [hs])⟩
        · rw [hmem, List.mem_cons, List.mem_cons]
          grind

theorem checkDims_eq_ok {dim : Nat} {seen : List Nat} {dims : List (List Nat)} {shape : Shape}
    (hlen : dims.length = shape.length) (h : r.checkDims t dim seen dims shape = .ok ()) :
    (∀ fs ∈ dims, fs ≠ []) ∧ dims.flatten.Nodup ∧
      ∀ f ∈ dims.flatten, f < r.factorCount ∧ f ∉ seen := by
  induction dims generalizing dim seen shape with
  | nil => simp
  | cons fs dims ih =>
    cases shape with
    | nil => cases hlen
    | cons size sizes =>
      rw [checkDims] at h
      split at h
      · cases h
      · rename_i hmapped
        obtain ⟨seen', hseen, h⟩ := bind_eq_ok_iff.1 h
        split at h
        · cases h
        · obtain ⟨hfs, hnew, hmem⟩ := checkFactors_eq_ok hseen
          obtain ⟨hall, hdims, hrest⟩ := ih (by simpa using hlen) h
          have hapart : ∀ f ∈ dims.flatten, f ∉ fs ∧ f ∉ seen := fun f hf => by
            have := (hrest f hf).2
            rw [hmem] at this
            exact ⟨fun hin => this (.inl hin), fun hin => this (.inr hin)⟩
          rw [List.flatten_cons, List.nodup_append]
          refine ⟨List.forall_mem_cons.2 ⟨by simpa using hmapped, hall⟩,
            ⟨hfs, hdims, fun f hf g hg e => (hapart g hg).1 (e ▸ hf)⟩, fun f hf => ?_⟩
          rcases List.mem_append.1 hf with hf | hf
          · exact hnew f hf
          · exact ⟨(hrest f hf).1, (hapart f hf).2⟩

theorem checkTensors_eq_ok {side : Side} {index : Nat} {mappings : List Mapping}
    {shapes : List Shape} (h : r.checkTensors side index mappings shapes = .ok ())
    {i : Nat} {mapping : Mapping} {shape : Shape} (hm : mappings[i]? = some mapping)
    (hs : shapes[i]? = some shape) : r.Maps mapping shape := by
  induction mappings generalizing index shapes i with
  | nil => simp at hm
  | cons first mappings ih =>
    cases shapes with
    | nil => simp at hs
    | cons firstShape shapes =>
      rw [checkTensors] at h
      split at h
      · cases h
      · rename_i hrank
        obtain ⟨_, hdims, h⟩ := bind_eq_ok_iff.1 h
        cases i with
        | zero =>
          cases hm
          cases hs
          have hrank := Decidable.not_not.1 hrank
          obtain ⟨hmapped, hnodup, hknown⟩ := checkDims_eq_ok hrank hdims
          exact ⟨hrank, hmapped, hnodup, fun f hf => (hknown f hf).1⟩
        | succ i => exact ih h (by simpa using hm) (by simpa using hs)

theorem checkSide_of_verify {sig : Signature} (h : r.verify sig = .ok ()) (side : Side) :
    r.checkSide side (sig.shapes side) = .ok () := by
  obtain ⟨_, hoperands, hresults⟩ := bind_eq_ok_iff.1 h
  cases side with
  | operand => exact hoperands
  | result => exact hresults

/-- A rule that verifies maps every operand and result. -/
theorem maps_of_verify {sig : Signature} (h : r.verify sig = .ok ()) (side : Side) :
    (r.mappings side).length = (sig.shapes side).length ∧
      ∀ (i : Nat) (mapping : Mapping) (shape : Shape), (r.mappings side)[i]? = some mapping →
        (sig.shapes side)[i]? = some shape → r.Maps mapping shape := by
  have hside := checkSide_of_verify h side
  rw [checkSide] at hside
  split at hside
  · cases hside
  · rename_i hlen
    exact ⟨Decidable.not_not.1 hlen, fun i mapping shape hm hs => checkTensors_eq_ok hside hm hs⟩

/-- Each mapping is one for the shape of its tensor. -/
theorem exists_maps_of_verify {sig : Signature} (h : r.verify sig = .ok ()) {t : TensorRef}
    {mapping : Mapping} (hmapping : r.mapping? t = some mapping) :
    ∃ shape, (sig.shapes t.side)[t.index]? = some shape ∧ r.Maps mapping shape := by
  obtain ⟨hcount, hmaps⟩ := maps_of_verify h t.side
  have hshape := List.getElem?_eq_getElem (hcount ▸ (List.getElem?_eq_some_iff.1 hmapping).1)
  exact ⟨_, hshape, hmaps t.index mapping _ hmapping hshape⟩

end Rule
end MeshSharding
