import MeshSharding.Proofs.Rule.Draft

/-! What finishing a draft adds. Dimensions with factors keep them, and each of the others gets a
factor of size 1 with a new number, which no other tensor has. -/
namespace MeshSharding
namespace Mapping

variable {n next i : Nat} {dims : List (List Nat)} {fs : List Nat} {mapping : Mapping}
  {mappings : List Mapping}

theorem getElem?_fillDims (h : (fillDims next dims).1[i]? = some fs) :
    (dims[i]? = some fs ∧ fs ≠ []) ∨
      (dims[i]? = some [] ∧ ∃ k, fs = [k] ∧ next ≤ k ∧ k < (fillDims next dims).2) := by
  induction dims generalizing next i with
  | nil => cases h
  | cons first rest ih =>
    rw [fillDims] at h ⊢
    split at h <;> rename_i hempty
    · rw [if_pos hempty]
      cases i with
      | zero =>
        refine .inr ⟨congrArg some (List.isEmpty_iff.1 hempty), next, (Option.some.inj h).symm,
          Nat.le_refl _, ?_⟩
        rw [fillDims_snd]
        omega
      | succ i =>
        rcases ih h with hkept | ⟨hnil, k, hk, hle, hlt⟩
        · exact .inl hkept
        · exact .inr ⟨hnil, k, hk, Nat.le_of_succ_le hle, hlt⟩
    · rw [if_neg hempty]
      cases i with
      | zero =>
        cases h
        exact .inl ⟨rfl, fun hnil => hempty (List.isEmpty_iff.2 hnil)⟩
      | succ i => exact ih h

theorem le_fillDims_snd (next : Nat) (dims : List (List Nat)) : next ≤ (fillDims next dims).2 := by
  rw [fillDims_snd]
  exact Nat.le_add_right ..

theorem le_fillAll_snd (next : Nat) (mappings : List Mapping) :
    next ≤ (fillAll next mappings).2 := by
  rw [fillAll_snd]
  exact Nat.le_add_right ..

theorem getElem?_fillAll (h : (fillAll next mappings).1[i]? = some mapping) :
    ∃ before first, mappings[i]? = some before ∧ mapping.dims = (fillDims first before.dims).1 ∧
      next ≤ first ∧ (fillDims first before.dims).2 ≤ (fillAll next mappings).2 := by
  induction mappings generalizing next i with
  | nil => cases h
  | cons before rest ih =>
    cases i with
    | zero =>
      cases h
      exact ⟨before, next, rfl, rfl, Nat.le_refl _, le_fillAll_snd ..⟩
    | succ i =>
      obtain ⟨found, first, hfound, hdims, hle, hlast⟩ := ih h
      exact ⟨found, first, hfound, hdims, Nat.le_trans (le_fillDims_snd ..) hle, hlast⟩

theorem fillAll_append (next : Nat) (front back : List Mapping) :
    (fillAll next (front ++ back)).1
      = (fillAll next front).1 ++ (fillAll (fillAll next front).2 back).1 := by
  induction front generalizing next with
  | nil => rfl
  | cons mapping front ih => exact congrArg (_ :: ·) (ih _)

/-- The factors that are new in a tensor are taken from `next` on. -/
theorem mem_fillDims {f : Nat} (hbelow : ∀ g ∈ dims.flatten, g < n) (hn : n ≤ f)
    (h : f ∈ (fillDims next dims).1.flatten) : next ≤ f ∧ f < (fillDims next dims).2 := by
  rcases List.mem_append.1 ((flatten_fillDims_perm next dims).mem_iff.1 h) with hold | hnew
  · exact absurd (hbelow f hold) (Nat.not_lt.2 hn)
  · rw [fillDims_snd]
    exact List.mem_range'_1.1 hnew

/-- No factor is new in two tensors. -/
theorem pairwise_fillAll (hbelow : ∀ m ∈ mappings, ∀ f ∈ m.dims.flatten, f < n) :
    (fillAll next mappings).1.Pairwise fun m m' =>
      ∀ f, n ≤ f → f ∈ m.dims.flatten → f ∉ m'.dims.flatten := by
  induction mappings generalizing next with
  | nil => exact .nil
  | cons before rest ih =>
    obtain ⟨hbefore, hrest⟩ := List.forall_mem_cons.1 hbelow
    refine List.pairwise_cons.2 ⟨fun later hlater f hn hf hlaterf => ?_, ih hrest⟩
    obtain ⟨i, hi⟩ := List.mem_iff_getElem?.1 hlater
    obtain ⟨found, first, hfound, hdims, hle, -⟩ := getElem?_fillAll hi
    have hlt := (mem_fillDims hbefore hn hf).2
    rw [hdims] at hlaterf
    have hge := (mem_fillDims (hrest found (List.mem_of_getElem? hfound)) hn hlaterf).1
    omega

end Mapping

/-- A dimension of an operand or result. -/
structure TensorDim where
  tensor : TensorRef
  dim : Nat
deriving DecidableEq

namespace Signature

def size? (sig : Signature) (p : TensorDim) : Option Nat :=
  (sig.shapes p.tensor.side)[p.tensor.index]?.bind (·[p.dim]?)

theorem size?_eq_some {sig : Signature} {p : TensorDim} {size : Nat} :
    sig.size? p = some size ↔
      ∃ shape, (sig.shapes p.tensor.side)[p.tensor.index]? = some shape ∧
        shape[p.dim]? = some size :=
  Option.bind_eq_some_iff

end Signature

namespace TensorRef

/-- The number of a tensor if the results are counted behind the operands. -/
def number (operands : Nat) (t : TensorRef) : Nat :=
  match t.side with
  | .operand => t.index
  | .result => operands + t.index

end TensorRef

namespace Rule

variable {r : Rule} {t t' : TensorRef} {mapping mapping' : Mapping}

theorem getElem?_allMappings (h : r.mapping? t = some mapping) :
    r.allMappings[t.number r.operands.length]? = some mapping := by
  obtain ⟨side, index⟩ := t
  cases side with
  | operand => exact List.getElem?_append_left (List.getElem?_eq_some_iff.1 h).1 ▸ h
  | result =>
    have hle : r.operands.length ≤ r.operands.length + index := Nat.le_add_right ..
    rw [allMappings, TensorRef.number, List.getElem?_append_right hle, Nat.add_sub_cancel_left]
    exact h

theorem number_ne (h : r.mapping? t = some mapping) (h' : r.mapping? t' = some mapping')
    (hne : t ≠ t') : t.number r.operands.length ≠ t'.number r.operands.length := by
  obtain ⟨side, index⟩ := t
  obtain ⟨side', index'⟩ := t'
  have hlt := (List.getElem?_eq_some_iff.1 h).1
  have hlt' := (List.getElem?_eq_some_iff.1 h').1
  cases side <;> cases side' <;> simp only [TensorRef.number, mappings] at hlt hlt' ⊢
  · exact fun heq => hne (by rw [heq])
  · omega
  · omega
  · exact fun heq => hne (by rw [Nat.add_left_cancel heq])

end Rule

namespace Draft

open Mapping

variable {sig : Signature} {d : Draft} {t t' : TensorRef} {mapping mapping' : Mapping}

def mappings (d : Draft) : Side → List Mapping
  | .operand => d.operands
  | .result => d.results

def mapping? (d : Draft) (t : TensorRef) : Option Mapping := (d.mappings t.side)[t.index]?

theorem allMappings_finish (d : Draft) :
    d.finish.allMappings = (fillAll d.factorCount (d.operands ++ d.results)).1 :=
  (fillAll_append ..).symm

/-- Behind the factors of the draft all factors of its rule are of size 1. -/
theorem getElem?_factors_finish {k : Nat} (hle : d.factorCount ≤ k)
    (hlt : k < d.finish.factorCount) :
    d.finish.factors[k]? = some ⟨1, .passThrough, false⟩ := by
  rw [Rule.factorCount, factors_finish, List.length_append, List.length_replicate] at hlt
  rw [factors_finish, List.getElem?_append_right hle]
  exact List.getElem?_replicate_of_lt (Nat.sub_lt_left_of_lt_add hle hlt)

/-- A dimension keeps the factors that it has in the draft, or gets a factor of size 1. -/
def Completes (d : Draft) (before mapping : Mapping) : Prop :=
  ∀ (dim : Nat) (fs : List Nat), mapping.dims[dim]? = some fs →
    (before.dims[dim]? = some fs ∧ fs ≠ []) ∨
      (before.dims[dim]? = some [] ∧ ∃ k, fs = [k] ∧ d.factorCount ≤ k ∧
        d.finish.factors[k]? = some ⟨1, .passThrough, false⟩)

theorem exists_completes (h : d.finish.mapping? t = some mapping) :
    ∃ before, d.mapping? t = some before ∧ d.Completes before mapping := by
  have hfilled : ∃ before first, d.mapping? t = some before ∧
      mapping.dims = (fillDims first before.dims).1 ∧ d.factorCount ≤ first ∧
      (fillDims first before.dims).2 ≤ d.finish.factorCount := by
    obtain ⟨side, index⟩ := t
    cases side with
    | operand =>
      obtain ⟨before, first, hbefore, hdims, hle, hlast⟩ := getElem?_fillAll h
      refine ⟨before, first, hbefore, hdims, hle, Nat.le_trans hlast ?_⟩
      rw [factorCount_finish]
      exact le_fillAll_snd ..
    | result =>
      obtain ⟨before, first, hbefore, hdims, hle, hlast⟩ := getElem?_fillAll h
      refine ⟨before, first, hbefore, hdims, Nat.le_trans (le_fillAll_snd ..) hle, ?_⟩
      rw [factorCount_finish]
      exact hlast
  obtain ⟨before, first, hbefore, hdims, hle, hlast⟩ := hfilled
  refine ⟨before, hbefore, fun dim fs hfs => ?_⟩
  rw [hdims] at hfs
  rcases getElem?_fillDims hfs with hkept | ⟨hnil, k, hk, hge, hlt⟩
  · exact .inl hkept
  · have hlek := Nat.le_trans hle hge
    exact .inr ⟨hnil, k, hk, hlek, getElem?_factors_finish hlek (Nat.lt_of_lt_of_le hlt hlast)⟩

/-- A factor that is not of the draft is in one tensor only. -/
theorem Sound.eq_of_mem_finish (h : d.Sound sig) (hm : d.finish.mapping? t = some mapping)
    (hm' : d.finish.mapping? t' = some mapping') {f : Nat} (hle : d.factorCount ≤ f)
    (hf : f ∈ mapping.dims.flatten) (hf' : f ∈ mapping'.dims.flatten) : t = t' := by
  by_contra hne
  have hbelow : ∀ m ∈ d.operands ++ d.results, ∀ g ∈ m.dims.flatten, g < d.factorCount := by
    have hside : ∀ {ms : List Mapping} {shapes : List Shape},
        List.Forall₂ (Within d.factorCount) ms shapes → ∀ m ∈ ms, ∀ g ∈ m.dims.flatten,
          g < d.factorCount := by
      intro ms shapes hms
      induction hms with
      | nil => nofun
      | cons hfirst _ ih => exact List.forall_mem_cons.2 ⟨hfirst.below, ih⟩
    exact List.forall_mem_append.2 ⟨hside h.operands, hside h.results⟩
  have hpairwise : d.finish.allMappings.Pairwise fun m m' =>
      ∀ f, d.factorCount ≤ f → f ∈ m.dims.flatten → f ∉ m'.dims.flatten := by
    rw [allMappings_finish]
    exact pairwise_fillAll hbelow
  have hat := Rule.getElem?_allMappings hm
  have hat' := Rule.getElem?_allMappings hm'
  obtain ⟨hi, hati⟩ := List.getElem?_eq_some_iff.1 hat
  obtain ⟨hj, hatj⟩ := List.getElem?_eq_some_iff.1 hat'
  have hapart := List.pairwise_iff_getElem.1 hpairwise
  rcases Nat.lt_or_gt_of_ne (Rule.number_ne hm hm' hne) with hlt | hlt
  · exact hapart _ _ hi hj hlt f hle (hati.symm ▸ hf) (hatj.symm ▸ hf')
  · exact hapart _ _ hj hi hlt f hle (hatj.symm ▸ hf') (hati.symm ▸ hf)

end Draft
end MeshSharding
