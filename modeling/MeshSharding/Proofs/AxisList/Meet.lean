import MeshSharding.Proofs.AxisList.Agreement

/-! Common parts as greatest lower bounds. The parts of a common part are those of both lists, so
the common part of several lists depends neither on their order nor on how they are grouped. -/
namespace MeshSharding

namespace AxisList

variable {m : Mesh} {l l' r x y part axes : List AxisRef} {p a : AxisRef}
  {lists lists' : List (List AxisRef)}

section meet

theorem meet_nil_right_eq_iff : meet m part [] = part ↔ part = [] := by
  cases part <;> simp [meet]

/-- The first reference of a part is a major part of that of the list. If it is the whole of it the
comparison goes on, otherwise the part ends there. -/
theorem meet_cons_eq_left_iff (hp : p.Valid m) :
    meet m (p :: part) (a :: axes) = p :: part ↔
      p.isPrefixOf a m = true ∧ (p = a → meet m part axes = part) ∧ (p ≠ a → part = []) := by
  rw [meet]
  by_cases hpa : p = a
  · subst hpa
    simp [AxisRef.isPrefixOf_self]
  · rw [if_neg hpa, ← AxisRef.greatestCommonPrefix_eq_left_iff hp]
    cases p.greatestCommonPrefix a m with
    | none => simp
    | some c => simp [hpa, eq_comm]

theorem meet_meet_eq_left_iff (hx : AllValid m x) (hl : AllValid m l) (hr : AllValid m r) :
    meet m x (meet m l r) = x ↔ meet m x l = x ∧ meet m x r = x := by
  induction x generalizing l r with
  | nil => simp [meet]
  | cons p part ih =>
    rw [allValid_cons] at hx
    cases l with
    | nil => simp [meet]
    | cons a l =>
    cases r with
    | nil => simp [meet]
    | cons b r =>
      rw [allValid_cons] at hl hr
      rw [meet_cons_eq_left_iff hx.1, meet_cons_eq_left_iff hx.1, meet]
      by_cases hab : a = b
      · subst hab
        rw [if_pos rfl, meet_cons_eq_left_iff hx.1, ih hx.2 hl.2 hr.2]
        tauto
      · have hgcp := AxisRef.exists_greatestCommonPrefix_iff (m := m) (a := a) (b := b) (x := p)
        rw [if_neg hab]
        cases hcommon : a.greatestCommonPrefix b m with
        | none =>
          -- the references do not even begin together
          simp only [hcommon, reduceCtorEq, false_and, exists_false, false_iff] at hgcp
          simp only [Option.toList_none, meet, reduceCtorEq, false_iff]
          exact fun h => hgcp ⟨h.1.1, h.2.1⟩
        | some c =>
          simp only [hcommon, Option.some.injEq, exists_eq_left'] at hgcp
          rw [Option.toList_some, meet_cons_eq_left_iff hx.1, hgcp]
          -- the common part ends with this reference, and so does each part of it
          constructor
          · rintro ⟨⟨hpa, hpb⟩, heq, hne⟩
            obtain rfl : part = [] := by
              by_cases hpc : p = c
              · exact meet_nil_right_eq_iff.1 (heq hpc)
              · exact hne hpc
            simp [hpa, hpb, meet]
          · rintro ⟨⟨hpa, -, hnea⟩, hpb, -, hneb⟩
            obtain rfl : part = [] := by
              by_cases h : p = a
              · exact hneb fun hpb => hab (h.symm.trans hpb)
              · exact hnea h
            simp [hpa, hpb, meet]

theorem separated_meet (hl : Separated m l) (hr : Separated m r) :
    Separated m (meet m l r) := by
  induction l generalizing r with
  | nil => simp [meet, Separated]
  | cons a l ih =>
    cases r with
    | nil => simp [meet, Separated]
    | cons b r =>
      rw [meet]
      split
      · refine separated_cons_congr hl (ih hl.tail hr.tail) fun x hx => ?_
        cases l with
        | nil => cases hx
        | cons c l =>
        cases r with
        | nil => cases hx
        | cons d r =>
          refine ⟨c, rfl, ?_⟩
          rw [meet] at hx
          split at hx
          · cases hx
            rfl
          · rw [Option.head?_toList] at hx
            unfold AxisRef.greatestCommonPrefix at hx
            split at hx
            · cases hx
              simp [AxisRef.canMerge]
            · cases hx
      · cases a.greatestCommonPrefix b m <;> simp [Separated]

end meet

section commonPrefix

@[simp] theorem mergeAdjacent_commonPrefix (m : Mesh) (l r : List AxisRef) :
    mergeAdjacent m (commonPrefix m l r) = commonPrefix m l r :=
  (separated_meet (separated_mergeAdjacent l) (separated_mergeAdjacent r)).mergeAdjacent_eq

/-- The major parts of a common part are those of both lists. -/
theorem isPrefix_commonPrefix_iff (hx : AllValid m x) (hl : AllValid m l) (hr : AllValid m r) :
    isPrefix m x (commonPrefix m l r) = true ↔
      isPrefix m x l = true ∧ isPrefix m x r = true := by
  simp only [isPrefix, decide_eq_true_eq]
  rw [commonPrefix, mergeAdjacent_commonPrefix]
  exact meet_meet_eq_left_iff hx.mergeAdjacent hl.mergeAdjacent hr.mergeAdjacent

/-- Lists that are major parts of each other are equivalent. -/
theorem mergeAdjacent_eq_of_isPrefix (h : isPrefix m x y = true) (h' : isPrefix m y x = true) :
    mergeAdjacent m x = mergeAdjacent m y := by
  simp only [isPrefix, decide_eq_true_eq] at h h'
  rw [← h, commonPrefix_comm, h']

/-- A list covers what its major parts cover. -/
theorem coverage_le_of_isPrefix (hx : AllValid m x) (hl : AllValid m l)
    (h : isPrefix m x l = true) (name : String) (c : Nat) :
    coverage m name c x ≤ coverage m name c l :=
  calc coverage m name c x = coverage m name c (mergeAdjacent m x) :=
        (coverage_mergeAdjacent hx name c).symm
    _ = coverage m name c (commonPrefix m l x) := by rw [commonPrefix_comm, of_decide_eq_true h]
    _ ≤ coverage m name c l := (commonPrefix_spec hl hx).2 name c

theorem isPrefix_mergeAdjacent_right (x l : List AxisRef) :
    isPrefix m x (mergeAdjacent m l) = isPrefix m x l := by
  rw [isPrefix, isPrefix, commonPrefix, commonPrefix, mergeAdjacent_mergeAdjacent]

/-- The major parts of the common part of several lists are those of all of them. -/
theorem isPrefix_commonPrefixOfAll_iff (hx : AllValid m x) (hl : AllValid m l)
    (hv : ∀ r ∈ lists, AllValid m r) :
    isPrefix m x (commonPrefixOfAll m (l :: lists)) = true ↔
      ∀ r ∈ l :: lists, isPrefix m x r = true := by
  have hfold : ∀ y, AllValid m y → (isPrefix m x (lists.foldl (commonPrefix m) y) = true ↔
      isPrefix m x y = true ∧ ∀ r ∈ lists, isPrefix m x r = true) := by
    induction lists with
    | nil => simp
    | cons r lists ih =>
      intro y hy
      rw [List.forall_mem_cons] at hv
      rw [List.foldl_cons, ih hv.2 _ (commonPrefix_spec hy hv.1).1,
        isPrefix_commonPrefix_iff hx hy hv.1, List.forall_mem_cons, and_assoc]
  rw [commonPrefixOfAll, hfold _ hl.mergeAdjacent, isPrefix_mergeAdjacent_right,
    List.forall_mem_cons]

theorem mergeAdjacent_commonPrefixOfAll (m : Mesh) (lists : List (List AxisRef)) :
    mergeAdjacent m (commonPrefixOfAll m lists) = commonPrefixOfAll m lists := by
  have hfold : ∀ y, mergeAdjacent m y = y →
      mergeAdjacent m (lists.tail.foldl (commonPrefix m) y)
        = lists.tail.foldl (commonPrefix m) y := by
    induction lists.tail with
    | nil => exact fun y hy => hy
    | cons r lists ih => exact fun y _ => ih _ (mergeAdjacent_commonPrefix ..)
  cases lists with
  | nil => rfl
  | cons l lists => exact hfold _ (mergeAdjacent_mergeAdjacent l)

/-- The common part of several lists does not depend on their order. -/
theorem commonPrefixOfAll_perm (h : lists.Perm lists') (hv : ∀ l ∈ lists, AllValid m l) :
    commonPrefixOfAll m lists = commonPrefixOfAll m lists' := by
  have hle : ∀ {ls ls' : List (List AxisRef)}, ls.Perm ls' → (∀ l ∈ ls, AllValid m l) →
      isPrefix m (commonPrefixOfAll m ls) (commonPrefixOfAll m ls') = true := by
    intro ls ls' hperm hvalid
    cases ls with
    | nil =>
      rw [List.nil_perm.1 hperm]
      exact isPrefix_self ..
    | cons l rest =>
      cases ls' with
      | nil => exact absurd hperm.eq_nil (by simp)
      | cons l' rest' =>
        have hvalid' : ∀ r ∈ l' :: rest', AllValid m r := fun r hr =>
          hvalid r (hperm.mem_iff.2 hr)
        rw [List.forall_mem_cons] at hvalid hvalid'
        have hcommon := (commonPrefixOfAll_spec hvalid.1 hvalid.2).1
        rw [isPrefix_commonPrefixOfAll_iff hcommon hvalid'.1 hvalid'.2]
        have hall := (isPrefix_commonPrefixOfAll_iff hcommon hvalid.1 hvalid.2).1
          (isPrefix_self ..)
        exact fun r hr => hall r (hperm.mem_iff.2 hr)
  have hv' : ∀ l ∈ lists', AllValid m l := fun l hl => hv l (h.mem_iff.2 hl)
  have hmerge := mergeAdjacent_eq_of_isPrefix (hle h hv) (hle h.symm hv')
  rwa [mergeAdjacent_commonPrefixOfAll, mergeAdjacent_commonPrefixOfAll] at hmerge

/-- The common part of equivalent lists is their merged form. -/
theorem commonPrefixOfAll_of_equivalent (h : ∀ r ∈ lists, mergeAdjacent m r = mergeAdjacent m l) :
    commonPrefixOfAll m (l :: lists) = mergeAdjacent m l := by
  rw [commonPrefixOfAll]
  induction lists with
  | nil => rfl
  | cons r lists ih =>
    rw [List.forall_mem_cons] at h
    have hcommon : commonPrefix m (mergeAdjacent m l) r = mergeAdjacent m l := by
      rw [commonPrefix, mergeAdjacent_mergeAdjacent, h.1]
      exact of_decide_eq_true (isPrefix_self m l)
    rw [List.foldl_cons, hcommon]
    exact ih h.2

end commonPrefix

end AxisList
end MeshSharding
