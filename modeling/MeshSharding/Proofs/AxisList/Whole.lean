import MeshSharding.Proofs.AxisList.Prefix

/-! Whole axes. A merged list that is continued by whole axes keeps all its references, and what is
stripped off one such continuation of it to get another one is made of whole axes again. -/
namespace MeshSharding
namespace AxisRef

variable {m : Mesh} {a b : AxisRef}

theorem eq_full (h : a.isSub = false) : a = full a.name := by
  obtain ⟨name, _ | w⟩ := a
  · rfl
  · cases h

theorem preSize_eq_one (h : a.isSub = false) : a.preSize = 1 := by
  rw [eq_full h]
  rfl

/-- A whole axis is adjacent to a reference only if both are the same axis, of size 1. -/
theorem merge_eq_left (ha : a.Valid m) (hb : b.isSub = false) (h : a.canMerge b m = true) :
    a.merge b m = a := by
  simp only [canMerge, decide_eq_true_eq, preSize_eq_one hb] at h
  have hsize : a.size m = 1 := Nat.eq_one_of_mul_eq_one_left h.2
  have hb : b.size m = 1 := by
    rw [eq_full hb, size_full, fullSize_congr (a := full b.name) m h.1.symm]
    exact ha.size_eq_one_iff.1 hsize
  rw [merge, hb, Nat.mul_one]
  exact ha.eq_ofWindow

end AxisRef

namespace AxisList

variable {m : Mesh} {l r r' l' l'' added : List AxisRef}

/-- Valid references to whole axes. -/
def Whole (m : Mesh) (l : List AxisRef) : Prop := ∀ a ∈ l, a.Valid m ∧ a.isSub = false

theorem whole_append : Whole m (l ++ r) ↔ Whole m l ∧ Whole m r := List.forall_mem_append

theorem Whole.mergeAdjacent (h : Whole m l) : Whole m (mergeAdjacent m l) :=
  forall_mem_mergeAdjacent h fun a b ha hb hm => by rwa [AxisRef.merge_eq_left ha.1 hb.2 hm]

/-- A merged list keeps its references in front of whole axes. -/
theorem exists_foldr_push (hl : AllValid m l) (hs : Separated m l) (hr : Whole m r) :
    ∃ tail, Whole m tail ∧ l.foldr (push m) r = l ++ tail := by
  induction l with
  | nil => exact ⟨r, hr, rfl⟩
  | cons a l ih =>
    rw [allValid_cons] at hl
    obtain ⟨tail, htail, heq⟩ := ih hl.2 hs.tail
    rw [List.foldr_cons, heq]
    cases l with
    | cons b l =>
      refine ⟨tail, htail, push_cons_of_not (List.isChain_cons_cons.1 hs).1 _⟩
    | nil =>
      cases tail with
      | nil => exact ⟨[], htail, rfl⟩
      | cons b tail =>
        have hb := (htail b List.mem_cons_self).2
        by_cases hm : a.canMerge b m = true
        · refine ⟨tail, fun x hx => htail x (List.mem_cons_of_mem _ hx), ?_⟩
          rw [List.nil_append, push_cons_of_canMerge hm, AxisRef.merge_eq_left hl.1 hb hm]
          rfl
        · exact ⟨b :: tail, htail, push_cons_of_not hm _⟩

theorem whole_of_cutMerged (hr : Whole m r) (hr' : Whole m r')
    (h : cutMerged m r r' = some added) : Whole m added := by
  induction r' generalizing r with
  | nil =>
    rw [cutMerged] at h
    cases h
    exact hr
  | cons p ps ih =>
    cases r with
    | nil => cases h
    | cons a as =>
      have hrest : Whole m as := fun x hx => hr x (List.mem_cons_of_mem _ hx)
      rw [cutMerged] at h
      split at h
      · exact ih hrest (fun x hx => hr' x (List.mem_cons_of_mem _ hx)) h
      · rename_i hne
        split at h
        · -- two whole axes of one name are the same
          rename_i hlast
          rw [AxisRef.eq_full (hr a List.mem_cons_self).2,
            AxisRef.eq_full (hr' p List.mem_cons_self).2, (AxisRef.isPrefixOf_iff.1 hlast.2).1] at hne
          exact absurd rfl hne
        · cases h

theorem cutMerged_append_left (m : Mesh) (l r r' : List AxisRef) :
    cutMerged m (l ++ r) (l ++ r') = cutMerged m r r' := by
  induction l with
  | nil => rfl
  | cons a l ih => rw [List.cons_append, List.cons_append, cutMerged, if_pos rfl, ih]

/-- The second list is the first one with further whole axes. -/
def Continues (m : Mesh) (l l' : List AxisRef) : Prop :=
  ∃ more, Whole m more ∧ mergeAdjacent m l' = mergeAdjacent m (l ++ more)

theorem Continues.of_eq (h : mergeAdjacent m l' = mergeAdjacent m l) : Continues m l l' :=
  ⟨[], List.forall_mem_nil _, by rw [List.append_nil, h]⟩

theorem Continues.append (h : Continues m l l') (hr : Whole m r) : Continues m l (l' ++ r) := by
  obtain ⟨more, hmore, heq⟩ := h
  refine ⟨more ++ r, whole_append.2 ⟨hmore, hr⟩, ?_⟩
  rw [← List.append_assoc]
  exact mergeAdjacent_append_congr heq rfl

theorem Continues.congr (h : Continues m l l') (heq : mergeAdjacent m l'' = mergeAdjacent m l') :
    Continues m l l'' := by
  obtain ⟨more, hmore, heq'⟩ := h
  exact ⟨more, hmore, heq.trans heq'⟩

/-- What one continuation has behind another one is made of whole axes. -/
theorem Continues.whole_of_stripPrefix? (hl : AllValid m l) (h : Continues m l l')
    (h' : Continues m l l'') (hstrip : stripPrefix? m l'' l' = some added) : Whole m added := by
  have hmerged : ∀ {r : List AxisRef}, Continues m l r →
      ∃ tail, Whole m tail ∧ AxisList.mergeAdjacent m r = AxisList.mergeAdjacent m l ++ tail := by
    rintro r ⟨more, hmore, heq⟩
    obtain ⟨tail, htail, hfold⟩ := exists_foldr_push hl.mergeAdjacent (separated_mergeAdjacent l)
      hmore.mergeAdjacent
    rw [← mergeAdjacent_append, mergeAdjacent_append_left, ← heq] at hfold
    exact ⟨tail, htail, hfold⟩
  obtain ⟨tail, htail, heq⟩ := hmerged h
  obtain ⟨tail', htail', heq'⟩ := hmerged h'
  rw [stripPrefix?, heq, heq', cutMerged_append_left] at hstrip
  exact whole_of_cutMerged htail' htail hstrip

end AxisList
end MeshSharding
