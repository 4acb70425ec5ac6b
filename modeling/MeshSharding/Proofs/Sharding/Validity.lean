import Mathlib.Data.List.Perm.Basic
import MeshSharding.Collective.Apply
import MeshSharding.Proofs.AxisList.Core

/-! Valid shardings. A sharding is valid exactly if its references are valid and no place
of an axis is covered twice. -/
namespace MeshSharding
namespace AxisList

variable {m : Mesh} {l r : List AxisRef} {a : AxisRef}

/-- No place of an axis is covered twice. -/
def Apart (m : Mesh) (l : List AxisRef) : Prop := ∀ name c, coverage m name c l ≤ 1

theorem Apart.sublist (h : Apart m r) (hs : l.Sublist r) : Apart m l :=
  fun name c => Nat.le_trans (coverage_sublist hs name c) (h name c)

theorem AllValid.perm (h : AllValid m l) (hp : r.Perm l) : AllValid m r :=
  h.subset hp.subset

theorem Apart.perm (h : Apart m l) (hp : r.Perm l) : Apart m r := fun name c => by
  rw [coverage_perm hp]
  exact h name c

theorem coverage_eq_zero_iff {name : String} {c : Nat} :
    coverage m name c l = 0 ↔ ∀ a ∈ l, a.covers m name c = false := by
  simp [coverage, List.countP_eq_zero]

theorem coverage_singleton (name : String) (c : Nat) (a : AxisRef) :
    coverage m name c [a] = if a.covers m name c then 1 else 0 := by
  simp [coverage, List.countP_singleton]

/-- A reference overlaps none of a list if the list leaves free what it covers. -/
theorem not_overlaps_iff (ha : a.Valid m) (hl : AllValid m l) :
    (∀ b ∈ l, ¬ a.overlaps b m = true) ↔
      ∀ name c, a.covers m name c = true → coverage m name c l = 0 := by
  constructor
  · intro h name c hc
    refine coverage_eq_zero_iff.2 fun b hb => ?_
    by_contra hcb
    exact h b hb ((AxisRef.overlaps_iff ha (hl b hb)).2 ⟨name, c, hc, by simpa using hcb⟩)
  · intro h b hb ho
    obtain ⟨name, c, hca, hcb⟩ := (AxisRef.overlaps_iff ha (hl b hb)).1 ho
    have := coverage_eq_zero_iff.1 (h name c hca) b hb
    rw [hcb] at this
    cases this

theorem apart_snoc (ha : a.Valid m) (hl : AllValid m l) :
    Apart m (l ++ [a]) ↔ Apart m l ∧ ∀ b ∈ l, ¬ a.overlaps b m = true := by
  rw [not_overlaps_iff ha hl]
  simp only [Apart, coverage_append, coverage_singleton]
  constructor
  · intro h
    refine ⟨fun name c => ?_, fun name c hc => ?_⟩
    · have := h name c; omega
    · have := h name c; simp only [hc, if_true] at this; omega
  · rintro ⟨h1, h2⟩ name c
    have := h1 name c
    by_cases hc : a.covers m name c = true
    · simp [hc, h2 name c hc]
    · simp only [hc]; simpa using this

theorem apart_cons (ha : a.Valid m) (hl : AllValid m l) :
    Apart m (a :: l) ↔ Apart m l ∧ ∀ b ∈ l, ¬ a.overlaps b m = true := by
  have hperm : (a :: l).Perm (l ++ [a]) := (List.perm_append_singleton a l).symm
  rw [← apart_snoc ha hl]
  exact ⟨fun h => h.perm hperm.symm, fun h => h.perm hperm⟩

/-- References that are apart do not overlap. -/
theorem Apart.pairwise (ha : Apart m l) (hl : AllValid m l) :
    l.Pairwise fun a b => ¬ a.overlaps b m = true := by
  induction l with
  | nil => exact .nil
  | cons a rest ih =>
    rw [allValid_cons] at hl
    rw [apart_cons hl.1 hl.2] at ha
    exact List.pairwise_cons.2 ⟨ha.2, ih ha.1 hl.2⟩

/-- What overlaps nothing of a list is free of it. -/
theorem coverage_eq_zero_of_not_overlaps (hl : AllValid m l) (hr : AllValid m r)
    (h : ∀ a ∈ l, overlapsAny m a r = false) {name : String} {c : Nat}
    (hc : 0 < coverage m name c l) : coverage m name c r = 0 := by
  obtain ⟨a, hmem, hcov⟩ := List.countP_pos_iff.1 hc
  refine (not_overlaps_iff (hl a hmem) hr).1 (fun b hb hov => ?_) name c hcov
  exact absurd (List.any_eq_true.2 ⟨b, hb, hov⟩) (by simpa [overlapsAny] using h a hmem)

/-- What leaves a list free overlaps nothing of it. -/
theorem overlapsAny_eq_false (hl : AllValid m l) (hr : AllValid m r)
    (h : ∀ name c, 0 < coverage m name c l → coverage m name c r = 0) (ha : a ∈ l) :
    overlapsAny m a r = false := by
  refine List.any_eq_false.2 ((not_overlaps_iff (hl a ha) hr).2 fun name c hc => h name c ?_)
  exact List.countP_pos_iff.2 ⟨a, ha, hc⟩

theorem apart_append_of_not_overlaps (hl : AllValid m l) (hr : AllValid m r) (hal : Apart m l)
    (har : Apart m r) (h : ∀ a ∈ l, overlapsAny m a r = false) : Apart m (l ++ r) := by
  intro name c
  have hl' := hal name c
  have hr' := har name c
  rw [coverage_append]
  by_cases hc : 0 < coverage m name c l
  · have := coverage_eq_zero_of_not_overlaps hl hr h hc
    omega
  · omega

/-- What overlaps a list does not stand in the way of it when it is dropped. -/
theorem Apart.filter_overlapsAny {s u : List AxisRef} (hr : AllValid m r) (hs : AllValid m s)
    (hlr : Apart m (l ++ r ++ u)) (hls : Apart m (l ++ s ++ u)) :
    Apart m (l ++ s ++ (r.filter fun a => !overlapsAny m a s) ++ u) := by
  intro name c
  have hlr := hlr name c
  have hls := hls name c
  simp only [coverage_append] at hlr hls ⊢
  by_cases hc : coverage m name c s = 0
  · have := coverage_sublist (m := m)
      (List.filter_sublist (l := r) (p := fun a => !overlapsAny m a s)) name c
    omega
  · have hfree : coverage m name c (r.filter fun a => !overlapsAny m a s) = 0 := by
      refine coverage_eq_zero_iff.2 fun a ha => ?_
      obtain ⟨har, hnot⟩ := List.mem_filter.1 ha
      simp only [overlapsAny, Bool.not_eq_true', List.any_eq_false] at hnot
      by_contra hcov
      exact hc ((not_overlaps_iff (hr a har) hs).1 hnot name c (by simpa using hcov))
    omega

end AxisList

namespace AxisRef

theorem overlaps_comm (a b : AxisRef) (m : Mesh) : a.overlaps b m = b.overlaps a m := by
  simp only [overlaps]
  congr 1
  rw [eq_comm (a := a.name), and_comm (a := a.preSize < b.nextPreSize m)]

end AxisRef

namespace TensorSharding

open AxisList

variable {m : Mesh} {s : TensorSharding} {shape : Shape}

theorem checkAxes_eq_ok_iff {earlier l : List AxisRef} (he : AllValid m earlier)
    (ha : Apart m earlier) :
    checkAxes m earlier l = .ok () ↔ AllValid m l ∧ Apart m (earlier ++ l) := by
  induction l generalizing earlier with
  | nil => simp [checkAxes, AllValid, ha]
  | cons a rest ih =>
    rw [checkAxes, allValid_cons]
    cases hv : a.validate m with
    | error e => simp [bind, Except.bind, AxisRef.Valid, hv]
    | ok _ =>
      have hva : a.Valid m := hv
      have hall : AllValid m (earlier ++ [a]) := allValid_append.2 ⟨he, by simpa [AllValid]⟩
      simp only [bind, Except.bind]
      by_cases ho : earlier.any (fun b => b.overlaps a m) = true
      · obtain ⟨b, hb, hob⟩ := List.any_eq_true.1 ho
        simp only [ho, if_true, reduceCtorEq, false_iff]
        rintro ⟨_, hap⟩
        rw [List.append_cons] at hap
        have := ((apart_snoc hva he).1 (hap.sublist (List.sublist_append_left _ _))).2 b hb
        rw [AxisRef.overlaps_comm] at hob
        exact this hob
      · have hnot : ∀ b ∈ earlier, ¬ a.overlaps b m = true := by
          intro b hb hob
          rw [AxisRef.overlaps_comm] at hob
          exact ho (List.any_eq_true.2 ⟨b, hb, hob⟩)
        rw [if_neg ho, ih hall ((apart_snoc hva he).2 ⟨ha, hnot⟩), List.append_assoc,
          List.singleton_append]
        simp [hva]

/-- The references of the sharding are valid, and apart. -/
def Valid (m : Mesh) (s : TensorSharding) : Prop := AllValid m s.usedAxes ∧ Apart m s.usedAxes

/-- A valid sharding fits the tensors of its rank. -/
theorem validate_eq_ok_iff : s.validate m shape = .ok () ↔
    s.rank = shape.length ∧ s.Valid m := by
  unfold validate
  by_cases h : s.rank = shape.length
  · rw [if_pos h, checkAxes_eq_ok_iff (by simp [AllValid]) (by simp [Apart])]
    simp [h, Valid]
  · simp [h]

theorem Valid.allValid_axes (h : s.Valid m) {dim : Nat} {d : DimSharding}
    (hd : s.dims[dim]? = some d) : AllValid m d.axes := fun a ha =>
  h.1 a (List.mem_append_left _ (List.mem_append_left _
    (List.mem_flatMap.2 ⟨d, List.mem_of_getElem? hd, ha⟩)))

/-- The axes of the dimensions are valid, though maybe not apart. -/
def ValidDims (m : Mesh) (s : TensorSharding) : Prop := ∀ d ∈ s.dims, AllValid m d.axes

theorem Valid.allValid_dims (h : s.Valid m) : s.ValidDims m := fun d hd => by
  obtain ⟨dim, hdim⟩ := List.mem_iff_getElem?.1 hd
  exact h.allValid_axes hdim

theorem ValidDims.allValid_dimAxes (h : s.ValidDims m) : AllValid m s.dimAxes := fun a ha =>
  have ⟨d, hd, had⟩ := List.mem_flatMap.1 ha
  h d hd a had

theorem Valid.allValid_extra (h : s.Valid m) :
    AllValid m s.replicated ∧ AllValid m s.unreduced := by
  have hall := h.1
  rw [usedAxes, allValid_append, allValid_append] at hall
  exact ⟨hall.1.2, hall.2⟩

section modify

variable {dim : Nat} {d : DimSharding}

theorem perm_usedAxes (hd : s.dims[dim]? = some d) :
    s.usedAxes.Perm (d.axes ++ s.axesOutside dim) := by
  obtain ⟨hlt, rfl⟩ := List.getElem?_eq_some_iff.1 hd
  have hdims := (List.getElem_cons_eraseIdx_perm hlt).symm.flatMap_right (·.axes)
  rw [List.flatMap_cons] at hdims
  unfold usedAxes axesOutside dimAxes
  rw [← List.append_assoc, ← List.append_assoc]
  exact (hdims.append_right _).append_right _

@[simp] theorem axesOutside_modifyDim (s : TensorSharding) (dim : Nat)
    (f : DimSharding → DimSharding) : (s.modifyDim dim f).axesOutside dim = s.axesOutside dim := by
  simp [axesOutside, modifyDim, List.eraseIdx_modify_of_eq]

theorem dims_modifyDim (hd : s.dims[dim]? = some d) (f : DimSharding → DimSharding) :
    (s.modifyDim dim f).dims[dim]? = some (f d) := by
  simp [modifyDim, hd]

theorem dims_modifyDim_of_ne {i : Nat} (hi : i ≠ dim) (f : DimSharding → DimSharding) :
    (s.modifyDim dim f).dims[i]? = s.dims[i]? := by
  simp [modifyDim, hi.symm]

theorem valid_iff (hd : s.dims[dim]? = some d) : s.Valid m ↔
    AllValid m (d.axes ++ s.axesOutside dim) ∧ Apart m (d.axes ++ s.axesOutside dim) := by
  have hperm := perm_usedAxes hd
  exact ⟨fun h => ⟨h.1.perm hperm.symm, h.2.perm hperm.symm⟩,
    fun h => ⟨h.1.perm hperm, h.2.perm hperm⟩⟩

theorem Valid.apart_axes (h : s.Valid m) (hd : s.dims[dim]? = some d) : Apart m d.axes :=
  ((valid_iff hd).1 h).2.sublist (List.sublist_append_left ..)

/-- A dimension changes to axes that are apart from the rest. -/
theorem Valid.modifyDim (h : s.Valid m) (hd : s.dims[dim]? = some d)
    {f : DimSharding → DimSharding} (hv : AllValid m (f d).axes)
    (ha : Apart m ((f d).axes ++ s.axesOutside dim)) : (s.modifyDim dim f).Valid m := by
  rw [valid_iff (dims_modifyDim hd f), axesOutside_modifyDim]
  exact ⟨allValid_append.2 ⟨hv, (allValid_append.1 ((valid_iff hd).1 h).1).2⟩, ha⟩

end modify

theorem checkDivisible_eq_ok {dim : Nat} {ds : List DimSharding} {sizes : Shape}
    (hv : ∀ d ∈ ds, AllValid m d.axes)
    (h : ∀ (i : Nat) (d : DimSharding) (size : Nat), ds[i]? = some d → sizes[i]? = some size →
      totalSize m d.axes ∣ size) :
    checkDivisible m dim ds sizes = .ok () := by
  induction ds generalizing dim sizes with
  | nil => simp [checkDivisible]
  | cons d ds ih =>
    cases sizes with
    | nil => simp [checkDivisible]
    | cons size sizes =>
      have hpos := totalSize_pos (hv d (by simp))
      have hdvd := Nat.dvd_iff_mod_eq_zero.1 (h 0 d size rfl rfl)
      rw [checkDivisible]
      simp only [Nat.ne_of_gt hpos, if_false, hdvd, if_true]
      exact ih (fun d hd => hv d (by simp [hd])) fun i d size hd hs => h (i + 1) d size hd hs

theorem dvd_of_checkDivisible {dim : Nat} {ds : List DimSharding} {sizes : Shape}
    (h : checkDivisible m dim ds sizes = .ok ()) {i : Nat} {d : DimSharding} {size : Nat}
    (hd : ds[i]? = some d) (hs : sizes[i]? = some size) : totalSize m d.axes ∣ size := by
  induction ds generalizing dim sizes i with
  | nil => simp at hd
  | cons d' ds ih =>
    cases sizes with
    | nil => simp at hs
    | cons size' sizes =>
      rw [checkDivisible] at h
      split at h
      · cases h
      · split at h
        · rename_i hmod
          cases i with
          | zero => cases hd; cases hs; exact Nat.dvd_of_mod_eq_zero hmod
          | succ i => exact ih h hd hs
        · cases h

section priorities

/-- No dimension has a priority. -/
def Unranked (s : TensorSharding) : Prop := ∀ d ∈ s.dims, d.priority = none

theorem Unranked.withoutPriorities_eq (h : s.Unranked) : s.withoutPriorities = s := by
  have hdims : s.dims.map (fun d => { d with priority := none }) = s.dims := by
    refine (List.map_congr_left fun d hd => ?_).trans (List.map_id _)
    rw [id, ← h d hd]
  rw [withoutPriorities, mapDims, hdims]

theorem Unranked.mapDims (h : s.Unranked) {f : DimSharding → DimSharding}
    (hf : ∀ d, (f d).priority = d.priority) : (s.mapDims f).Unranked := by
  intro d hd
  obtain ⟨old, hold, rfl⟩ := List.mem_map.1 hd
  rw [hf, h old hold]

theorem Unranked.modifyDim (h : s.Unranked) {f : DimSharding → DimSharding} {dim : Nat}
    (hf : ∀ d, s.dims[dim]? = some d → (f d).priority = d.priority) :
    (s.modifyDim dim f).Unranked := by
  intro d hd
  obtain ⟨i, hi⟩ := List.getElem?_of_mem hd
  rw [TensorSharding.modifyDim, List.getElem?_modify, Option.map_eq_map] at hi
  obtain ⟨old, hold, rfl⟩ := Option.map_eq_some_iff.1 hi
  split
  · rename_i heq
    rw [hf old (heq ▸ hold), h old (List.mem_of_getElem? hold)]
  · exact h old (List.mem_of_getElem? hold)

theorem unranked_fullyOpen (name : String) (n : Nat) : (fullyOpen name n).Unranked := by
  intro d hd
  rw [List.eq_of_mem_replicate hd]
  rfl

end priorities

end TensorSharding

namespace Collective

open AxisList

theorem checkUnused_eq_ok {c : Collective} {m : Mesh} {s : TensorSharding}
    {used l : List AxisRef} (hu : AllValid m used) (hl : AllValid m l)
    (h : ∀ name p, 0 < coverage m name p l → coverage m name p (used ++ l) ≤ 1) :
    c.checkUnused m s used l = .ok () := by
  induction l generalizing used with
  | nil => rfl
  | cons a rest ih =>
    rw [allValid_cons] at hl
    have hfree : ∀ b ∈ used, ¬ a.overlaps b m = true := by
      refine (not_overlaps_iff hl.1 hu).2 fun name p hp => ?_
      have := h name p (by rw [coverage_cons, coverage_singleton, hp, if_pos rfl]; omega)
      rw [coverage_append, coverage_cons, coverage_singleton, hp] at this
      simp at this
      omega
    have hany : overlapsAny m a used = false :=
      List.any_eq_false.2 fun b hb => by simpa using hfree b hb
    have hv : a.validate m = .ok () := hl.1
    rw [checkUnused, hv]
    simp only [bind, Except.bind, hany, Bool.false_eq_true, if_false]
    refine ih (allValid_append.2 ⟨hu, by simpa [AllValid] using hl.1⟩) hl.2 fun name p hp => ?_
    rw [List.append_assoc, List.singleton_append]
    exact h name p (by rw [coverage_cons]; omega)

end Collective
end MeshSharding
