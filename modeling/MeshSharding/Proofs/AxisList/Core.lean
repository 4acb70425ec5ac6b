import MeshSharding.Proofs.AxisList.Merge

/-! The core of an axis list: the merged list of its references of size above 1. Lists
with one core make the same shards, and on a mesh without axes of size 1 the core of a
valid list is its merged form. -/
namespace MeshSharding
namespace AxisList

variable {m : Mesh}

/-- The references of size above 1. -/
def trim (m : Mesh) (l : List AxisRef) : List AxisRef := l.filter fun a => 1 < a.size m

def core (m : Mesh) (l : List AxisRef) : List AxisRef := mergeAdjacent m (trim m l)

@[simp] theorem trim_nil : trim m [] = [] := rfl

@[simp] theorem trim_append (l r : List AxisRef) : trim m (l ++ r) = trim m l ++ trim m r :=
  List.filter_append ..

theorem trim_eq_self {l : List AxisRef} (h : ∀ a ∈ l, 1 < a.size m) : trim m l = l :=
  List.filter_eq_self.2 (by simpa using h)

theorem mem_trim {a : AxisRef} {l : List AxisRef} :
    a ∈ trim m l ↔ a ∈ l ∧ 1 < a.size m := by simp [trim]

theorem trim_subset (l : List AxisRef) : trim m l ⊆ l := fun _ h => (mem_trim.1 h).1

theorem core_append_congr {l l' r r' : List AxisRef} (hl : core m l = core m l')
    (hr : core m r = core m r') : core m (l ++ r) = core m (l' ++ r') := by
  unfold core at *
  rw [trim_append, trim_append]
  exact mergeAdjacent_append_congr hl hr

theorem AllValid.core {l : List AxisRef} (h : AllValid m l) : AllValid m (core m l) :=
  (h.subset (trim_subset l)).mergeAdjacent

theorem separated_core (l : List AxisRef) : Separated m (core m l) := separated_mergeAdjacent _

/-- Merging references of size above 1 gives such references. -/
theorem one_lt_size_of_mem_core {l : List AxisRef} : ∀ a ∈ core m l, 1 < a.size m := by
  refine forall_mem_mergeAdjacent (fun a ha => (mem_trim.1 ha).2) fun a b ha hb _ => ?_
  rw [AxisRef.merge_size]
  exact Nat.one_lt_mul_iff.2 ⟨by omega, by omega, .inl ha⟩

@[simp] theorem core_core (l : List AxisRef) : core m (core m l) = core m l := by
  have h : trim m (core m l) = core m l := trim_eq_self one_lt_size_of_mem_core
  calc core m (core m l) = mergeAdjacent m (core m l) := by rw [core, h]
    _ = core m l := mergeAdjacent_mergeAdjacent _

/-- References of size 1 are merged among themselves only. -/
theorem core_merge_cons {a b : AxisRef} (ha : a.Valid m) (hb : b.Valid m)
    (hm : a.canMerge b m = true) (l : List AxisRef) :
    core m (a.merge b m :: l) = core m (a :: b :: l) := by
  have hpa := ha.size_pos
  have hpb := hb.size_pos
  have hone := one_lt_size_iff_of_canMerge ha hb hm
  unfold core trim
  by_cases hs : 1 < a.size m
  · have hprod : 1 < a.size m * b.size m := Nat.one_lt_mul_iff.2 ⟨hpa, hpb, .inl hs⟩
    simp [hs, hone.1 hs, hprod, push_push hm]
  · have h1 : a.size m = 1 := by omega
    have h2 : b.size m = 1 := by omega
    simp [h1, h2]

theorem core_cons_congr (a : AxisRef) {l l' : List AxisRef} (h : core m l = core m l') :
    core m (a :: l) = core m (a :: l') := core_append_congr (l := [a]) rfl h

@[simp] theorem core_mergeAdjacent {l : List AxisRef} (h : AllValid m l) :
    core m (mergeAdjacent m l) = core m l :=
  apply_mergeAdjacent h (fun _ _ ha hb hm => ha.merge hb hm)
    (fun a _ _ => core_cons_congr a) fun _ _ l ha hb hm => core_merge_cons ha hb hm l

/-- Lists that are equivalent have one core. -/
theorem core_eq_of_mergeAdjacent_eq {l r : List AxisRef} (hl : AllValid m l)
    (hr : AllValid m r) (h : mergeAdjacent m l = mergeAdjacent m r) : core m l = core m r := by
  rw [← core_mergeAdjacent hl, h, core_mergeAdjacent hr]

theorem totalSize_append (l r : List AxisRef) :
    totalSize m (l ++ r) = totalSize m l * totalSize m r := by simp [totalSize]

theorem totalSize_pos {l : List AxisRef} (h : AllValid m l) : 0 < totalSize m l := by
  induction l with
  | nil => simp
  | cons a rest ih =>
    rw [allValid_cons] at h
    rw [totalSize_cons]
    exact Nat.mul_pos h.1.size_pos (ih h.2)

theorem totalSize_trim {l : List AxisRef} (h : AllValid m l) :
    totalSize m (trim m l) = totalSize m l := by
  induction l with
  | nil => rfl
  | cons a rest ih =>
    rw [allValid_cons] at h
    have hpos := h.1.size_pos
    unfold trim at ih ⊢
    by_cases hs : 1 < a.size m
    · simp [hs, ih h.2]
    · have h1 : a.size m = 1 := by omega
      simp [h1, ih h.2]

/-- The core makes as many shards. -/
@[simp] theorem totalSize_core {l : List AxisRef} (h : AllValid m l) :
    totalSize m (core m l) = totalSize m l := by
  rw [core, totalSize_mergeAdjacent, totalSize_trim h]

theorem totalSize_perm {l r : List AxisRef} (h : l.Perm r) : totalSize m l = totalSize m r := by
  induction h with
  | nil => rfl
  | cons a _ ih => simp [ih]
  | swap a b l => simp [Nat.mul_left_comm]
  | trans _ _ ih₁ ih₂ => rw [ih₁, ih₂]

theorem coverage_trim {l : List AxisRef} (h : AllValid m l) (name : String) (c : Nat) :
    coverage m name c (trim m l) = coverage m name c l := by
  unfold coverage trim
  rw [List.countP_filter]
  refine List.countP_congr fun a ha => ?_
  by_cases hs : 1 < a.size m
  · simp [hs]
  · have hpos := (h a ha).size_pos
    simp [AxisRef.covers_eq_false (m := m) (a := a) (by omega) name c]

/-- The core covers the same. -/
@[simp] theorem coverage_core {l : List AxisRef} (h : AllValid m l) (name : String) (c : Nat) :
    coverage m name c (core m l) = coverage m name c l := by
  rw [core, coverage_mergeAdjacent (h.subset (trim_subset l)), coverage_trim h]

/-- On a mesh without axes of size 1 the core is the merged form. -/
theorem core_eq_mergeAdjacent (hm : m.NoUnitAxes) {l : List AxisRef} (h : AllValid m l) :
    core m l = mergeAdjacent m l := by
  rw [core, trim_eq_self fun a ha => (h a ha).one_lt_size hm]

end AxisList
end MeshSharding
