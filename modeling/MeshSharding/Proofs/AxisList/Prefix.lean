import MeshSharding.AxisList.Prefix
import MeshSharding.Proofs.Propagation.Share

/-! Major parts of axis lists. What is stripped off a list makes it up again, and a common
part covers nothing that its lists do not cover. -/
namespace MeshSharding
namespace AxisRef

variable {m : Mesh} {a b p x y : AxisRef} {n : Nat}

/-- Cutting off a major part of the size of a given one gives that part. -/
theorem eq_of_split (hp : p.Valid m) (hpart : p.isPrefixOf a m = true)
    (h : a.split (p.size m) m = some (x, y)) : x = p := by
  simp only [isPrefixOf, decide_eq_true_eq] at hpart
  unfold split at h
  split at h
  · cases h
  · cases h
    rw [← hpart.1, ← hpart.2.1, ← fullSize_congr m hpart.1]
    exact hp.eq_ofWindow

/-- The common major part of two references is one of them. -/
theorem greatestCommonPrefix_eq (ha : a.Valid m) (hb : b.Valid m)
    (h : a.greatestCommonPrefix b m = some x) :
    (x = a ∨ x = b) ∧ x.name = a.name ∧ x.preSize = a.preSize ∧ x.size m ≤ a.size m := by
  unfold greatestCommonPrefix at h
  split at h
  · rename_i heq
    cases h
    refine ⟨?_, ofWindow_name .., ofWindow_preSize .., ?_⟩
    · rcases Nat.le_total (a.size m) (b.size m) with hle | hle
      · rw [Nat.min_eq_left hle]
        exact .inl ha.eq_ofWindow
      · rw [Nat.min_eq_right hle, heq.1, heq.2, fullSize_congr m heq.1]
        exact .inr hb.eq_ofWindow
    · rw [ofWindow_size]
      exact Nat.min_le_left ..
  · cases h

theorem isSome_split_iff {size : Nat} : (a.split size m).isSome ↔
    1 < size ∧ size < a.size m ∧ size ∣ a.size m := by
  unfold split
  rw [Nat.dvd_iff_mod_eq_zero]
  split <;> simp <;> omega

theorem isPrefixOf_iff : a.isPrefixOf b m = true ↔
    a.name = b.name ∧ a.preSize = b.preSize ∧ a.preSize * a.size m ≤ b.preSize * b.size m :=
  decide_eq_true_iff

theorem isPrefixOf_trans (h : a.isPrefixOf b m = true) (h' : b.isPrefixOf x m = true) :
    a.isPrefixOf x m = true := by
  rw [isPrefixOf_iff] at h h' ⊢
  exact ⟨h.1.trans h'.1, h.2.1.trans h'.2.1, Nat.le_trans h.2.2 h'.2.2⟩

/-- The common major part is the first reference exactly if that is a major part of the other. -/
theorem greatestCommonPrefix_eq_left_iff (ha : a.Valid m) :
    a.greatestCommonPrefix b m = some a ↔ a.isPrefixOf b m = true := by
  rw [isPrefixOf_iff]
  unfold greatestCommonPrefix
  by_cases hstart : a.name = b.name ∧ a.preSize = b.preSize
  · rw [if_pos hstart, Option.some.injEq, ← hstart.2, Nat.mul_le_mul_left_iff ha.preSize_pos]
    constructor
    · intro h
      have hsize := congrArg (AxisRef.size · m) h
      simp only [ofWindow_size] at hsize
      exact ⟨hstart.1, rfl, by omega⟩
    · rintro ⟨-, -, hle⟩
      rw [Nat.min_eq_left hle]
      exact ha.eq_ofWindow
  · rw [if_neg hstart]
    simp only [reduceCtorEq, false_iff]
    exact fun h => hstart ⟨h.1, h.2.1⟩

/-- Where a major part ends within a reference, it can be cut off exactly if its size divides that
of the reference. -/
theorem isSome_split_iff_of_isPrefixOf (ha : a.Valid m) (hp : p.Valid m) (hne : p ≠ a)
    (h : p.isPrefixOf a m = true) : (a.split (p.size m) m).isSome ↔ p.size m ∣ a.size m := by
  rw [isPrefixOf_iff] at h
  obtain ⟨hname, hpre, hle⟩ := h
  rw [hpre] at hle
  have hle := Nat.le_of_mul_le_mul_left hle ha.preSize_pos
  have hsize : p.size m ≠ a.size m := fun heq => by
    refine hne ?_
    rw [← hp.eq_ofWindow, ← ha.eq_ofWindow, hname, hpre, heq, fullSize_congr m hname]
  have hone : p.size m ≠ 1 := fun hone => by
    rw [hp.size_eq_one_iff, fullSize_congr m hname, ← ha.size_eq_one_iff] at hone
    have := hp.size_pos
    omega
  have hpos := hp.size_pos
  rw [isSome_split_iff]
  exact ⟨fun h => h.2.2, fun h => ⟨by omega, by omega, h⟩⟩

/-- Both pieces have size above 1. -/
theorem one_lt_size_of_split (ha : a.Valid m) (h : a.split n m = some (x, y)) :
    1 < x.size m ∧ 1 < y.size m := by
  obtain ⟨-, -, -, hmerge, hx⟩ := split_eq_some ha h
  obtain ⟨hn, hlt, -⟩ := isSome_split_iff.1 (Option.isSome_of_eq_some h)
  have hsize := congrArg (AxisRef.size · m) hmerge
  simp only [merge_size, hx] at hsize
  refine ⟨by omega, Nat.lt_of_mul_lt_mul_left (a := n) ?_⟩
  omega

/-- The size of the major piece is the one that was asked for. -/
theorem split_self (ha : a.Valid m) (h : a.split n m = some (x, y)) :
    a.split (x.size m) m = some (x, y) := by
  obtain ⟨-, -, -, -, hx⟩ := split_eq_some ha h
  rwa [hx]

theorem ne_of_split (ha : a.Valid m) (h : a.split n m = some (x, y)) : x ≠ a := by
  obtain ⟨-, -, -, -, hx⟩ := split_eq_some ha h
  obtain ⟨-, hlt, -⟩ := isSome_split_iff.1 (Option.isSome_of_eq_some h)
  rintro rfl
  omega

theorem isPrefixOf_of_split (ha : a.Valid m) (h : a.split n m = some (x, y)) :
    x.isPrefixOf a m = true := by
  obtain ⟨-, hy, hm, rfl, -⟩ := split_eq_some ha h
  rw [isPrefixOf_iff, merge_name, merge_preSize, merge_size]
  exact ⟨rfl, rfl, Nat.mul_le_mul_left _ (Nat.le_mul_of_pos_right _ hy.size_pos)⟩

end AxisRef

namespace AxisList

variable {m : Mesh} {axes part rest l r a b c : List AxisRef}

section strip

/-- A part begins with the first reference of the list, or it is a piece of that one. -/
theorem cutMerged_cons_eq_some_iff {a p : AxisRef} (ha : a.Valid m) (hp : p.Valid m) :
    cutMerged m (a :: axes) (p :: part) = some rest ↔
      p = a ∧ cutMerged m axes part = some rest ∨
        part = [] ∧ ∃ n y, a.split n m = some (p, y) ∧ rest = y :: axes := by
  rw [cutMerged]
  by_cases hpa : p = a
  · subst hpa
    rw [if_pos rfl]
    refine ⟨fun h => .inl ⟨rfl, h⟩, ?_⟩
    rintro (⟨-, h⟩ | ⟨-, n, y, hsplit, -⟩)
    · exact h
    · exact absurd rfl (AxisRef.ne_of_split ha hsplit)
  · rw [if_neg hpa]
    constructor
    · intro h
      split at h
      · rename_i hlast
        obtain ⟨⟨x, y⟩, hsplit, rfl⟩ := Option.map_eq_some_iff.1 h
        obtain rfl := AxisRef.eq_of_split hp hlast.2 hsplit
        exact .inr ⟨List.isEmpty_iff.1 hlast.1, _, y, hsplit, rfl⟩
      · cases h
    · rintro (⟨h, -⟩ | ⟨rfl, n, y, hsplit, rfl⟩)
      · exact absurd h hpa
      · rw [if_pos ⟨rfl, AxisRef.isPrefixOf_of_split ha hsplit⟩, AxisRef.split_self ha hsplit]
        rfl

theorem cutMerged_eq_some (haxes : AllValid m axes) (hpart : AllValid m part)
    (h : cutMerged m axes part = some rest) :
    AllValid m rest ∧ mergeAdjacent m (part ++ rest) = mergeAdjacent m axes := by
  induction part generalizing axes with
  | nil =>
    rw [cutMerged] at h
    cases h
    exact ⟨haxes, rfl⟩
  | cons p ps ih =>
    cases axes with
    | nil => cases h
    | cons a as =>
      rw [allValid_cons] at haxes hpart
      rcases (cutMerged_cons_eq_some_iff haxes.1 hpart.1).1 h with
        ⟨rfl, htail⟩ | ⟨rfl, n, y, hsplit, rfl⟩
      · obtain ⟨hrest, hmerge⟩ := ih haxes.2 hpart.2 htail
        exact ⟨hrest, by rw [List.cons_append, mergeAdjacent_cons, hmerge, mergeAdjacent_cons]⟩
      · obtain ⟨-, hy, hm, hmerge, -⟩ := AxisRef.split_eq_some haxes.1 hsplit
        refine ⟨allValid_cons.2 ⟨hy, haxes.2⟩, ?_⟩
        simp only [List.cons_append, List.nil_append, mergeAdjacent_cons]
        rw [push_push hm, hmerge]

/-- A major part and what it leaves make up the list. -/
theorem stripPrefix?_eq_some (haxes : AllValid m axes) (hpart : AllValid m part)
    (h : stripPrefix? m axes part = some rest) :
    AllValid m rest ∧ mergeAdjacent m (part ++ rest) = mergeAdjacent m axes := by
  obtain ⟨hrest, hmerge⟩ := cutMerged_eq_some haxes.mergeAdjacent hpart.mergeAdjacent h
  rw [mergeAdjacent_append_left, mergeAdjacent_mergeAdjacent] at hmerge
  exact ⟨hrest, hmerge⟩

theorem coverage_stripPrefix? (haxes : AllValid m axes) (hpart : AllValid m part)
    (h : stripPrefix? m axes part = some rest) (name : String) (c : Nat) :
    coverage m name c axes = coverage m name c part + coverage m name c rest := by
  obtain ⟨hrest, hmerge⟩ := stripPrefix?_eq_some haxes hpart h
  rw [← coverage_append, ← coverage_mergeAdjacent haxes, ← hmerge,
    coverage_mergeAdjacent (allValid_append.2 ⟨hpart, hrest⟩)]

/-- A merged list is taken off any longer one, also where it ends within a reference. -/
theorem cutMerged_mergeAdjacent_append (hl : AllValid m l) (hr : AllValid m r)
    (hsep : Separated m l) (hl1 : ∀ a ∈ l, 1 < a.size m) (hr1 : ∀ a ∈ r, 1 < a.size m) :
    cutMerged m (mergeAdjacent m (l ++ r)) l = some (mergeAdjacent m r) := by
  induction l with
  | nil => rw [List.nil_append, cutMerged]
  | cons a l ih =>
    rw [allValid_cons] at hl
    rw [List.forall_mem_cons] at hl1
    cases l with
    | cons b l =>
      rw [List.cons_append, mergeAdjacent_cons, push_append_of_separated hsep, cutMerged,
        if_pos rfl]
      exact ih hl.2 hsep.tail hl1.2
    | nil =>
      rw [List.singleton_append, mergeAdjacent_cons]
      have hv := hr.mergeAdjacent
      have hs : ∀ b ∈ mergeAdjacent m r, 1 < b.size m := by
        refine forall_mem_mergeAdjacent hr1 fun b c hb hc _ => ?_
        rw [AxisRef.merge_size]
        exact Nat.one_lt_mul_iff.2 ⟨by omega, by omega, .inl hb⟩
      cases hmerged : mergeAdjacent m r with
      | nil => rw [push, cutMerged, if_pos rfl, cutMerged]
      | cons b rest =>
        rw [hmerged, allValid_cons] at hv
        rw [hmerged, List.forall_mem_cons] at hs
        by_cases hm : a.canMerge b m = true
        · have hne : a ≠ a.merge b m := fun heq => by
            have hsize := congrArg (AxisRef.size · m) heq
            simp only [AxisRef.merge_size] at hsize
            have := Nat.mul_lt_mul_of_pos_left hs.1 hl.1.size_pos
            omega
          have hle : a.nextPreSize m ≤ b.nextPreSize m := by
            rw [AxisRef.canMerge_iff] at hm
            rw [hm.2]
            exact hv.1.preSize_le_nextPreSize
          have hcut : a.isPrefixOf (a.merge b m) m = true := by
            simp [AxisRef.isPrefixOf, AxisRef.merge_nextPreSize hm, hle]
          rw [push_cons_of_canMerge hm, cutMerged, if_neg hne,
            if_pos ⟨rfl, hcut⟩, AxisRef.split_merge hl.1 hv.1 hm hl1.1 hs.1]
          rfl
        · rw [push_cons_of_not hm, cutMerged, if_pos rfl, cutMerged]

theorem isSome_cutMerged_push {x : AxisRef} (ha : x.Valid m) (hr : AllValid m r) :
    (cutMerged m (push m x r) [x]).isSome := by
  have hself : ∀ rest, (cutMerged m (x :: rest) [x]).isSome := fun rest => by
    rw [cutMerged, if_pos rfl, cutMerged]
    rfl
  cases r with
  | nil => exact hself []
  | cons b rest =>
    rw [allValid_cons] at hr
    by_cases hm : x.canMerge b m = true
    · rw [push_cons_of_canMerge hm]
      by_cases hb : 1 < b.size m
      · have hle := hr.1.preSize_le_nextPreSize
        have hcut : x.isPrefixOf (x.merge b m) m = true := by
          rw [AxisRef.canMerge_iff] at hm
          simp [AxisRef.isPrefixOf, AxisRef.merge_nextPreSize, AxisRef.canMerge, hm, hle]
        have hsplit := AxisRef.split_merge ha hr.1 hm ((one_lt_size_iff_of_canMerge ha hr.1 hm).2 hb)
          hb
        rw [cutMerged]
        split
        · rw [cutMerged]
          rfl
        · rw [if_pos ⟨rfl, hcut⟩, hsplit]
          rfl
      · -- both windows are the whole of an axis of size 1
        have hone : b.size m = 1 := by
          have := hr.1.size_pos
          omega
        have hmerge : x.merge b m = x := by
          rw [AxisRef.merge, hone, Nat.mul_one]
          exact ha.eq_ofWindow
        rw [hmerge]
        exact hself rest
    · rw [push_cons_of_not hm]
      exact hself (b :: rest)

/-- A list can be taken off any longer one. -/
theorem isSome_stripPrefix?_append (hl : AllValid m l) (hr : AllValid m r) :
    (stripPrefix? m (l ++ r) l).isSome := by
  have hcut : ∀ {l : List AxisRef}, AllValid m l → Separated m l →
      (cutMerged m (mergeAdjacent m (l ++ r)) l).isSome := by
    intro l hl hsep
    induction l with
    | nil => rw [cutMerged]; rfl
    | cons a l ih =>
      rw [allValid_cons] at hl
      cases l with
      | nil =>
        rw [List.singleton_append, mergeAdjacent_cons]
        exact isSome_cutMerged_push hl.1 hr.mergeAdjacent
      | cons b l =>
        rw [List.cons_append, mergeAdjacent_cons, push_append_of_separated hsep, cutMerged,
          if_pos rfl]
        exact ih hl.2 hsep.tail
  rw [stripPrefix?, ← mergeAdjacent_append_left]
  exact hcut hl.mergeAdjacent (separated_mergeAdjacent l)

theorem stripPrefix?_self (m : Mesh) (l : List AxisRef) : stripPrefix? m l l = some [] := by
  have hcut : ∀ l : List AxisRef, cutMerged m l l = some [] := fun l => by
    induction l with
    | nil => rfl
    | cons a rest ih => rw [cutMerged, if_pos rfl, ih]
  exact hcut _

theorem isPrefix_self (m : Mesh) (l : List AxisRef) : isPrefix m l l = true := by
  have hmeet : ∀ l : List AxisRef, meet m l l = l := fun l => by
    induction l with
    | nil => rfl
    | cons a rest ih => rw [meet, if_pos rfl, ih]
  exact decide_eq_true (hmeet _)

theorem isSome_cutMerged_trans (hab : (cutMerged m b a).isSome) (hbc : (cutMerged m c b).isSome) :
    (cutMerged m c a).isSome := by
  induction a generalizing b c with
  | nil => rw [cutMerged]; rfl
  | cons p ps ih =>
    cases b with
    | nil => cases hab
    | cons q qs =>
    cases c with
    | nil => cases hbc
    | cons x xs =>
      rw [cutMerged] at hab hbc ⊢
      split at hab
      · rename_i hpq
        subst hpq
        split at hbc
        · rename_i hpx
          rw [if_pos hpx]
          exact ih hab hbc
        · rename_i hpx
          rw [if_neg hpx]
          split at hbc
          · rename_i hlast
            obtain rfl := List.isEmpty_iff.1 hlast.1
            cases ps with
            | nil => rwa [if_pos hlast]
            | cons _ _ => cases hab
          · cases hbc
      · split at hab
        · rename_i hpq hlast
          split at hbc
          · rename_i hqx
            rw [← hqx, if_neg hpq, if_pos hlast]
            simpa using hab
          · split at hbc
            · rename_i hlast'
              split
              · rw [List.isEmpty_iff.1 hlast.1, cutMerged]
                rfl
              · have hcut := AxisRef.isPrefixOf_trans hlast.2 hlast'.2
                rw [if_pos ⟨hlast.1, hcut⟩]
                rw [Option.isSome_map, AxisRef.isSome_split_iff] at hab hbc ⊢
                exact ⟨hab.1, Nat.lt_trans hab.2.1 hbc.2.1, Nat.dvd_trans hab.2.2 hbc.2.2⟩
            · cases hbc
        · cases hab

/-- A list that has a major part of a major part refines it. -/
theorem isSome_stripPrefix?_trans (hab : (stripPrefix? m b a).isSome)
    (hbc : (stripPrefix? m c b).isSome) : (stripPrefix? m c a).isSome :=
  isSome_cutMerged_trans hab hbc

/-- The size of each reference of a part divides that of the reference of the list at its
place. -/
def Divides (m : Mesh) (part axes : List AxisRef) : Prop :=
  ∀ (i : Nat) (p a : AxisRef), part[i]? = some p → axes[i]? = some a → p.size m ∣ a.size m

theorem divides_cons {p x : AxisRef} :
    Divides m (p :: part) (x :: axes) ↔ p.size m ∣ x.size m ∧ Divides m part axes := by
  refine ⟨fun h => ⟨h 0 p x rfl rfl, fun i => h (i + 1)⟩, fun h i => ?_⟩
  cases i with
  | zero => rintro _ _ ⟨⟩ ⟨⟩; exact h.1
  | succ i => exact h.2 i

theorem isSome_cutMerged_iff (hpart : AllValid m part) (haxes : AllValid m axes) :
    (cutMerged m axes part).isSome ↔ meet m part axes = part ∧ Divides m part axes := by
  induction part generalizing axes with
  | nil => simp [cutMerged, meet, Divides]
  | cons p ps ih =>
    cases axes with
    | nil => simp [cutMerged, meet]
    | cons x xs =>
      rw [allValid_cons] at hpart haxes
      rw [cutMerged, meet, divides_cons]
      split
      · rename_i hpx
        subst hpx
        rw [ih hpart.2 haxes.2, List.cons.injEq]
        simp
      · rename_i hne
        by_cases hlast : ps.isEmpty ∧ p.isPrefixOf x m = true
        · obtain rfl := List.isEmpty_iff.1 hlast.1
          rw [if_pos hlast, Option.isSome_map,
            AxisRef.isSome_split_iff_of_isPrefixOf haxes.1 hpart.1 hne hlast.2,
            (AxisRef.greatestCommonPrefix_eq_left_iff hpart.1).2 hlast.2]
          simp [Divides]
        · rw [if_neg hlast]
          simp only [Option.isSome_none, Bool.false_eq_true, false_iff, not_and]
          intro hmeet
          cases hcommon : p.greatestCommonPrefix x m with
          | none => simp [hcommon] at hmeet
          | some y =>
            rw [hcommon, Option.toList_some, List.cons.injEq] at hmeet
            obtain ⟨rfl, rfl⟩ := hmeet
            exact absurd ⟨rfl, (AxisRef.greatestCommonPrefix_eq_left_iff hpart.1).1 hcommon⟩ hlast

/-- A list has a major part exactly if the two agree up to the last reference of the part and that
one ends evenly within its reference of the list. -/
theorem isSome_stripPrefix?_iff (hpart : AllValid m part) (haxes : AllValid m axes) :
    (stripPrefix? m axes part).isSome ↔ isPrefix m part axes = true ∧
      Divides m (mergeAdjacent m part) (mergeAdjacent m axes) := by
  rw [stripPrefix?, isSome_cutMerged_iff hpart.mergeAdjacent haxes.mergeAdjacent, isPrefix,
    decide_eq_true_eq]
  rfl

theorem isPrefix_append (hl : AllValid m l) (hr : AllValid m r) :
    isPrefix m l (l ++ r) = true :=
  ((isSome_stripPrefix?_iff hl (allValid_append.2 ⟨hl, hr⟩)).1
    (isSome_stripPrefix?_append hl hr)).1

end strip

section common

theorem meet_spec (hl : AllValid m l) (hr : AllValid m r) :
    AllValid m (meet m l r) ∧
      ∀ name c, coverage m name c (meet m l r) ≤ coverage m name c l := by
  induction l generalizing r with
  | nil => simp [meet, AllValid]
  | cons a l ih =>
    cases r with
    | nil => simp [meet, AllValid]
    | cons b r =>
      rw [allValid_cons] at hl hr
      rw [meet]
      split
      · obtain ⟨hv, hcov⟩ := ih hl.2 hr.2
        refine ⟨allValid_cons.2 ⟨hl.1, hv⟩, fun name c => ?_⟩
        rw [coverage_cons, coverage_cons name c a l]
        exact Nat.add_le_add_left (hcov name c) _
      · cases hcommon : a.greatestCommonPrefix b m with
        | none => simp [AllValid]
        | some x =>
          obtain ⟨heq, hname, hpre, hsize⟩ := AxisRef.greatestCommonPrefix_eq hl.1 hr.1 hcommon
          refine ⟨?_, fun name c => ?_⟩
          · rcases heq with rfl | rfl
            · simpa [AllValid] using hl.1
            · simpa [AllValid] using hr.1
          · have hnext : x.nextPreSize m ≤ a.nextPreSize m := by
              rw [AxisRef.nextPreSize, hpre]
              exact Nat.mul_le_mul_left _ hsize
            have hfirst : coverage m name c [a] ≤ coverage m name c (a :: l) :=
              coverage_sublist (List.singleton_sublist.2 List.mem_cons_self) name c
            refine Nat.le_trans ?_ hfirst
            simp only [Option.toList_some, coverage_singleton, AxisRef.covers, hname, hpre,
              decide_eq_true_eq]
            by_cases hn : a.name = name
            · simp only [hn, true_and]
              split <;> split <;> omega
            · simp [hn]

theorem commonPrefix_spec (hl : AllValid m l) (hr : AllValid m r) :
    AllValid m (commonPrefix m l r) ∧
      ∀ name c, coverage m name c (commonPrefix m l r) ≤ coverage m name c l := by
  obtain ⟨hv, hcov⟩ := meet_spec hl.mergeAdjacent hr.mergeAdjacent
  refine ⟨hv, fun name c => ?_⟩
  rw [← coverage_mergeAdjacent hl]
  exact hcov name c

/-- A common part of valid lists is valid, and it covers no more than the first of them. -/
theorem commonPrefixOfAll_spec {lists : List (List AxisRef)} (hl : AllValid m l)
    (hv : ∀ r ∈ lists, AllValid m r) :
    AllValid m (commonPrefixOfAll m (l :: lists)) ∧
      ∀ name c, coverage m name c (commonPrefixOfAll m (l :: lists)) ≤ coverage m name c l := by
  have hfold : ∀ x, AllValid m x → AllValid m (lists.foldl (commonPrefix m) x) ∧
      ∀ name c, coverage m name c (lists.foldl (commonPrefix m) x) ≤ coverage m name c x := by
    induction lists with
    | nil => exact fun x hx => ⟨hx, fun _ _ => Nat.le_refl _⟩
    | cons r lists ih =>
      intro x hx
      obtain ⟨hv', hcov⟩ := commonPrefix_spec hx (hv r List.mem_cons_self)
      obtain ⟨hall, hle⟩ := ih (fun r hr => hv r (List.mem_cons_of_mem _ hr)) _ hv'
      exact ⟨hall, fun name c => Nat.le_trans (hle name c) (hcov name c)⟩
  obtain ⟨hall, hle⟩ := hfold _ hl.mergeAdjacent
  refine ⟨hall, fun name c => ?_⟩
  rw [← coverage_mergeAdjacent hl]
  exact hle name c

end common

end AxisList
end MeshSharding
