import MeshSharding.Proofs.Rule.Misfit
import MeshSharding.Rule.Draft

/-! Rules from drafts. Each call adds factors with new numbers, and finishing a draft gives each
dimension without factors a new one of its own. So whatever is called, a mapping has distinct
factors of the rule in each dimension, and only their sizes can keep the rule from verifying. -/
namespace MeshSharding
namespace Mapping

variable {n next : Nat} {mapping : Mapping} {shape : Shape} {dims : List (List Nat)}

/-- The mapping has the rank of the shape and no factor twice, and all factors are below `n`. -/
structure Within (n : Nat) (mapping : Mapping) (shape : Shape) : Prop where
  rank : mapping.rank = shape.length
  nodup : mapping.dims.flatten.Nodup
  below : ∀ f ∈ mapping.dims.flatten, f < n

theorem Within.mono {k : Nat} (h : Within n mapping shape) (hle : n ≤ k) :
    Within k mapping shape :=
  ⟨h.rank, h.nodup, fun f hf => Nat.lt_of_lt_of_le (h.below f hf) hle⟩

/-- A factor is added in one place, or left out. -/
theorem flatten_place (mapping : Mapping) (dim factor size : Nat) :
    (mapping.place dim factor size).dims.flatten = mapping.dims.flatten ∨
      (mapping.place dim factor size).dims.flatten.Perm (factor :: mapping.dims.flatten) := by
  obtain ⟨dims⟩ := mapping
  simp only [place]
  induction dims generalizing dim with
  | nil => exact .inl (by simp)
  | cons fs rest ih =>
    cases dim with
    | zero =>
      rw [List.modify_zero_cons, List.flatten_cons, List.flatten_cons]
      split
      · exact .inl rfl
      · rw [List.append_assoc]
        exact .inr List.perm_middle
    | succ dim =>
      rw [List.modify_succ_cons, List.flatten_cons, List.flatten_cons]
      rcases ih dim with heq | hperm
      · exact .inl (by rw [heq])
      · exact .inr ((hperm.append_left fs).trans List.perm_middle)

/-- A new factor is placed. -/
theorem Within.place (h : Within n mapping shape) (dim size : Nat) :
    Within (n + 1) (mapping.place dim n size) shape := by
  refine ⟨(place_rank ..).trans h.rank, ?_, ?_⟩ <;>
    rcases flatten_place mapping dim n size with heq | hperm
  · exact heq ▸ h.nodup
  · have hfresh : n ∉ mapping.dims.flatten := fun hmem => Nat.lt_irrefl n (h.below n hmem)
    exact hperm.nodup_iff.2 (List.nodup_cons.2 ⟨hfresh, h.nodup⟩)
  · exact heq ▸ (h.mono (Nat.le_succ n)).below
  · intro f hf
    rcases List.mem_cons.1 (hperm.mem_iff.1 hf) with rfl | hf
    · exact Nat.lt_succ_self _
    · exact Nat.lt_succ_of_lt (h.below f hf)

@[simp] theorem fillDims_length (next : Nat) (dims : List (List Nat)) :
    (fillDims next dims).1.length = dims.length := by
  induction dims generalizing next with
  | nil => rfl
  | cons fs rest ih =>
    rw [fillDims]
    split <;> simp [ih]

theorem fillDims_snd (next : Nat) (dims : List (List Nat)) :
    (fillDims next dims).2 = next + dims.countP List.isEmpty := by
  induction dims generalizing next with
  | nil => rfl
  | cons fs rest ih =>
    rw [fillDims]
    split <;> rename_i hempty
    · rw [ih, List.countP_cons_of_pos hempty, Nat.add_assoc, Nat.add_comm 1]
    · rw [ih, List.countP_cons_of_neg hempty]

theorem ne_nil_of_mem_fillDims : ∀ fs ∈ (fillDims next dims).1, fs ≠ [] := by
  induction dims generalizing next with
  | nil => nofun
  | cons fs rest ih =>
    rw [fillDims]
    split <;> rename_i hempty
    · exact List.forall_mem_cons.2 ⟨List.cons_ne_nil _ _, ih⟩
    · exact List.forall_mem_cons.2 ⟨fun h => hempty (List.isEmpty_iff.2 h), ih⟩

/-- The dimensions without factors get the next numbers. -/
theorem flatten_fillDims_perm (next : Nat) (dims : List (List Nat)) :
    (fillDims next dims).1.flatten.Perm
      (dims.flatten ++ List.range' next (dims.countP List.isEmpty)) := by
  induction dims generalizing next with
  | nil => exact .nil
  | cons fs rest ih =>
    rw [fillDims]
    split <;> rename_i hempty
    · rw [List.isEmpty_iff.1 hempty, List.countP_cons_of_pos rfl, List.range'_succ]
      exact ((ih (next + 1)).cons next).trans List.perm_middle.symm
    · rw [List.countP_cons_of_neg hempty, List.flatten_cons, List.flatten_cons,
        List.append_assoc]
      exact (ih next).append_left fs

theorem Within.fillDims (h : Within n mapping shape) (hle : n ≤ next) :
    Within (fillDims next mapping.dims).2 ⟨(fillDims next mapping.dims).1⟩ shape := by
  have hperm := flatten_fillDims_perm next mapping.dims
  refine ⟨(fillDims_length ..).trans h.rank, hperm.nodup_iff.2 ?_, fun f hf => ?_⟩
  · refine List.nodup_append.2 ⟨h.nodup, List.nodup_range', fun f hf g hg heq => ?_⟩
    have hlt := h.below f hf
    have hge := (List.mem_range'_1.1 hg).1
    omega
  · rw [fillDims_snd]
    rcases List.mem_append.1 (hperm.mem_iff.1 hf) with hf | hf
    · have hlt := h.below f hf
      omega
    · exact (List.mem_range'_1.1 hf).2

theorem fillAll_snd (next : Nat) (mappings : List Mapping) : (fillAll next mappings).2
    = next + (mappings.flatMap (·.dims)).countP List.isEmpty := by
  induction mappings generalizing next with
  | nil => rfl
  | cons mapping rest ih =>
    simp only [fillAll, ih, fillDims_snd, List.flatMap_cons, List.countP_append, Nat.add_assoc]

/-- A mapping in which each dimension has factors. -/
def Filled (mapping : Mapping) : Prop := ∀ fs ∈ mapping.dims, fs ≠ []

theorem forall₂_fillAll {mappings : List Mapping} {shapes : List Shape}
    (h : List.Forall₂ (Within n) mappings shapes) (hle : n ≤ next) :
    List.Forall₂ (fun mapping shape => Within (fillAll next mappings).2 mapping shape
      ∧ mapping.Filled) (fillAll next mappings).1 shapes := by
  induction h generalizing next with
  | nil => exact .nil
  | @cons mapping shape mappings shapes hfirst _ ih =>
    have hnext : next ≤ (fillDims next mapping.dims).2 := by
      rw [fillDims_snd]
      exact Nat.le_add_right ..
    have hlast : (fillDims next mapping.dims).2 ≤ (fillAll next (mapping :: mappings)).2 := by
      rw [fillAll, fillAll_snd]
      exact Nat.le_add_right ..
    exact .cons ⟨(hfirst.fillDims hle).mono hlast, ne_nil_of_mem_fillDims⟩
      (ih (Nat.le_trans hle hnext))

end Mapping

namespace Draft

open Mapping

variable {sig : Signature} {d : Draft}

/-- A call that adds factors to a draft. -/
inductive Call
  | factor (operandDims resultDims : List (Option Nat)) (f : Factor)
  | operands (dim : Nat) (resultDims : List (Option Nat)) (f : Factor)
  | results (operandDims : List (Option Nat)) (dim : Nat) (f : Factor)
  | all (dim : Nat) (f : Factor)
  | pointwise (shape : Shape) (type : Nat → FactorType)
  | pointwiseBlocking (shape : Shape) (type : Nat → FactorType) (blocked : Nat → Bool)
  | pointwiseIf (shape : Shape) (p : Nat → Bool) (type : Nat → FactorType)
  | pointwiseMismatch (input output : Shape) (mismatch : FactorType) (blocked : Bool)

def make (d : Draft) : Call → Draft
  | .factor operandDims resultDims f => d.addFactor operandDims resultDims f
  | .operands dim resultDims f => d.addToOperands dim resultDims f
  | .results operandDims dim f => d.addToResults operandDims dim f
  | .all dim f => d.addToAll dim f
  | .pointwise shape type => d.addPointwise shape type
  | .pointwiseBlocking shape type blocked => d.addPointwiseBlocking shape type blocked
  | .pointwiseIf shape p type => d.addPointwiseIf shape p type
  | .pointwiseMismatch input output mismatch blocked =>
    d.addPointwiseMismatch input output mismatch blocked

/-- The draft after all calls in turn. -/
def ofCalls (sig : Signature) (calls : List Call) : Draft := calls.foldl make (blank sig)

/-- A factor for each dimension with a type. -/
def dimFactors (type : Nat → Nat → Option (FactorType × Bool)) (dim : Nat) (shape : Shape) :
    List Factor :=
  (shape.zipIdx dim).filterMap fun p => (type p.2 p.1).map fun t => ⟨p.1, t.1, t.2⟩

/-- The factors that a call adds. -/
def Call.factors : Call → List Factor
  | .factor _ _ f | .operands _ _ f | .results _ _ f | .all _ f => [f]
  | .pointwise shape type => dimFactors (fun dim _ => some (type dim, false)) 0 shape
  | .pointwiseBlocking shape type blocked =>
    dimFactors (fun dim _ => some (type dim, blocked dim)) 0 shape
  | .pointwiseIf shape p type =>
    dimFactors (fun dim _ => if p dim then some (type dim, false) else none) 0 shape
  | .pointwiseMismatch input output mismatch blocked =>
    dimFactors (fun dim size =>
      some (if output[dim]? = some size then (.passThrough, false) else (mismatch, blocked)))
      0 input

/-- The number of dimensions without factors. -/
def unmapped (d : Draft) : Nat :=
  ((d.operands ++ d.results).flatMap (·.dims)).countP List.isEmpty

/-- The mappings have the ranks of the shapes and distinct factors of the draft. -/
structure Sound (sig : Signature) (d : Draft) : Prop where
  operands : List.Forall₂ (Within d.factorCount) d.operands sig.operands
  results : List.Forall₂ (Within d.factorCount) d.results sig.results

theorem sound_blank (sig : Signature) : (blank sig).Sound sig := by
  have hblank : ∀ shapes : List Shape, List.Forall₂ (Within 0)
      (shapes.map fun shape => ⟨shape.map fun _ => []⟩) shapes := by
    intro shapes
    refine List.forall₂_map_left_iff.2 (List.forall₂_same.2 fun shape _ => ?_)
    have hflatten : (⟨shape.map fun _ => []⟩ : Mapping).dims.flatten = [] := by simp
    exact ⟨List.length_map .., by rw [hflatten]; exact .nil, by rw [hflatten]; nofun⟩
  exact ⟨hblank _, hblank _⟩

theorem forall₂_placeIn {n : Nat} {mappings : List Mapping} {shapes : List Shape} (size : Nat)
    (dims : List (Option Nat)) (h : List.Forall₂ (Within n) mappings shapes) :
    List.Forall₂ (Within (n + 1)) (placeIn n size mappings dims) shapes := by
  have hmono : ∀ {mappings : List Mapping} {shapes : List Shape},
      List.Forall₂ (Within n) mappings shapes → List.Forall₂ (Within (n + 1)) mappings shapes :=
    fun h => h.imp fun _ _ hw => hw.mono (Nat.le_succ n)
  induction h generalizing dims with
  | nil => cases dims <;> exact .nil
  | cons hfirst hrest ih =>
    match dims with
    | [] => exact hmono (.cons hfirst hrest)
    | none :: dims => exact .cons (hfirst.mono (Nat.le_succ n)) (ih dims)
    | some dim :: dims => exact .cons (hfirst.place dim size) (ih dims)

theorem Sound.addFactor (h : d.Sound sig) (operandDims resultDims : List (Option Nat))
    (f : Factor) : (d.addFactor operandDims resultDims f).Sound sig := by
  refine ⟨?_, ?_⟩ <;> rw [addFactor_factorCount]
  · exact forall₂_placeIn f.size operandDims h.operands
  · exact forall₂_placeIn f.size resultDims h.results

theorem Sound.addToAll (h : d.Sound sig) (dim : Nat) (f : Factor) :
    (d.addToAll dim f).Sound sig := by
  refine ⟨?_, ?_⟩ <;> rw [addToAll_factorCount] <;> refine List.forall₂_map_left_iff.2 ?_
  · exact h.operands.imp fun _ _ hw => hw.place dim f.size
  · exact h.results.imp fun _ _ hw => hw.place dim f.size

theorem Sound.addDimsFrom (h : d.Sound sig) (type : Nat → Nat → Option (FactorType × Bool))
    (dim : Nat) (shape : Shape) : (addDimsFrom type dim d shape).Sound sig := by
  induction shape generalizing d dim with
  | nil => exact h
  | cons size rest ih =>
    rw [Draft.addDimsFrom]
    split
    · exact ih (h.addToAll dim _) (dim + 1)
    · exact ih h (dim + 1)

theorem Sound.make (h : d.Sound sig) (call : Call) : (d.make call).Sound sig := by
  cases call with
  | factor | operands | results => exact h.addFactor _ _ _
  | all => exact h.addToAll _ _
  | pointwise | pointwiseBlocking | pointwiseIf | pointwiseMismatch => exact h.addDimsFrom _ _ _

theorem sound_ofCalls (sig : Signature) (calls : List Call) : (ofCalls sig calls).Sound sig :=
  List.foldlRecOn calls make (sound_blank sig) fun _ h call _ => h.make call

theorem factors_addDimsFrom (type : Nat → Nat → Option (FactorType × Bool)) (dim : Nat)
    (d : Draft) (shape : Shape) :
    (addDimsFrom type dim d shape).factors = d.factors ++ dimFactors type dim shape := by
  induction shape generalizing d dim with
  | nil => exact (List.append_nil _).symm
  | cons size rest ih =>
    rw [addDimsFrom, dimFactors, List.zipIdx_cons, List.filterMap_cons]
    cases type dim size with
    | none => exact ih (dim + 1) d
    | some t => exact (ih (dim + 1) _).trans (List.append_assoc ..)

theorem factors_make (d : Draft) (call : Call) :
    (d.make call).factors = d.factors ++ call.factors := by
  cases call with
  | factor | operands | results | all => rfl
  | pointwise | pointwiseBlocking | pointwiseIf => exact factors_addDimsFrom ..
  | pointwiseMismatch input output mismatch blocked =>
    rw [Call.factors, ← factors_addDimsFrom, make, addPointwiseMismatch, addDims]
    congr 2
    funext dim size
    split <;> rfl

theorem factors_ofCalls (sig : Signature) (calls : List Call) :
    (ofCalls sig calls).factors = calls.flatMap Call.factors := by
  have hfold : ∀ d : Draft,
      (calls.foldl make d).factors = d.factors ++ calls.flatMap Call.factors := by
    induction calls with
    | nil => exact fun d => (List.append_nil _).symm
    | cons call calls ih =>
      intro d
      rw [List.foldl_cons, ih, factors_make, List.flatMap_cons, List.append_assoc]
  exact (hfold _).trans (List.nil_append _)

/-- Finishing adds a factor for each dimension without factors. -/
theorem factors_finish (d : Draft) : d.finish.factors
    = d.factors ++ List.replicate d.unmapped ⟨1, .passThrough, false⟩ := by
  rw [finish, unmapped, List.flatMap_append, List.countP_append]
  dsimp only
  rw [fillAll_snd, fillAll_snd, Nat.add_assoc, Nat.add_sub_cancel_left]

theorem factorCount_finish (d : Draft) : d.finish.factorCount
    = (fillAll (fillAll d.factorCount d.operands).2 d.results).2 := by
  rw [Rule.factorCount, factors_finish, fillAll_snd, fillAll_snd, unmapped, List.flatMap_append,
    List.countP_append, List.length_append, List.length_replicate, Nat.add_assoc]
  rfl

theorem Sound.maps_finish (h : d.Sound sig) (side : Side) :
    List.Forall₂ d.finish.Maps (d.finish.mappings side) (sig.shapes side) := by
  have hle : d.factorCount ≤ (fillAll d.factorCount d.operands).2 := by
    rw [fillAll_snd]
    exact Nat.le_add_right ..
  have hcount := (factorCount_finish d).symm
  have hmaps : ∀ {n : Nat} {mapping : Mapping} {shape : Shape}, n ≤ d.finish.factorCount →
      Within n mapping shape ∧ mapping.Filled → d.finish.Maps mapping shape :=
    fun hn hw => ⟨hw.1.rank, hw.2, hw.1.nodup, (hw.1.mono hn).below⟩
  cases side with
  | operand =>
    refine (forall₂_fillAll h.operands (Nat.le_refl _)).imp fun _ _ => hmaps ?_
    rw [← hcount, fillAll_snd _ d.results]
    exact Nat.le_add_right ..
  | result => exact (forall₂_fillAll h.results hle).imp fun _ _ => hmaps (Nat.le_of_eq hcount)

/-- Whatever calls have made a draft, its rule maps each tensor: the ranks are those of the shapes,
and each dimension has factors, which are factors of the rule and distinct throughout the tensor.
The factors of the rule are those that the calls add, and one for each dimension left without
factors. So the rule verifies, or the factors of a dimension have another product than its size. -/
theorem verify_finish_eq_ok_or_misfit (sig : Signature) (calls : List Call) :
    let d := ofCalls sig calls
    let r := d.finish
    (∀ side, List.Forall₂ r.Maps (r.mappings side) (sig.shapes side)) ∧
    r.factors = calls.flatMap Call.factors ++ List.replicate d.unmapped ⟨1, .passThrough, false⟩ ∧
    (r.verify sig = .ok () ∨
      ∃ t mapping shape dim fs size, r.mapping? t = some mapping ∧
        (sig.shapes t.side)[t.index]? = some shape ∧ r.Misfit mapping.dims shape dim fs size ∧
        r.verify sig = Rule.malformed (.dimSize t dim (r.productOf fs) size)) := by
  have hmaps := (sound_ofCalls sig calls).maps_finish
  exact ⟨hmaps, (factors_finish _).trans (by rw [factors_ofCalls]),
    Rule.verify_eq_ok_or_misfit hmaps⟩

/-- A factor of size 1 is left out of a dimension with factors, and the last dimension gets one of
its own. -/
example : (ofCalls ⟨[[6, 4]], [[6]]⟩
      [.factor [some 0] [some 0] ⟨6, .passThrough, false⟩, .all 0 ⟨1, .reduction, true⟩]).finish
    = ⟨[⟨6, .passThrough, false⟩, ⟨1, .reduction, true⟩, ⟨1, .passThrough, false⟩],
        [⟨[[0], [2]]⟩], [⟨[[0]]⟩], false⟩ := by decide

end Draft
end MeshSharding
