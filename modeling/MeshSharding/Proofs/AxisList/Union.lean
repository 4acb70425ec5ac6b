import MeshSharding.Proofs.AxisList.Growth

/-! The union of two axis lists. It is sorted and covers what the lists cover, in whatever order
they are given. Its references overlap nowhere exactly if the references of both lists together
grow evenly. -/
namespace MeshSharding
namespace AxisList

open AxisRef (Leads)

variable {m : Mesh} {l r u rest : List AxisRef} {a last : AxisRef}

/-- The list `u` is sorted, has valid references, and covers what the list `l` covers. -/
structure IsUnion (m : Mesh) (l u : List AxisRef) : Prop where
  sorted : u.Pairwise fun a b => (a.compare b m).isLE = true
  valid : AllValid m u
  covered_iff : ∀ name c, Covered m u name c ↔ Covered m l name c

section pass

/-- What becomes of a kept reference and those that follow it: each one is dropped, makes the kept
one longer, or is kept in turn. -/
inductive Pass (m : Mesh) : AxisRef → List AxisRef → List AxisRef → Prop
  | done (last : AxisRef) (ready : Ready m last []) : Pass m last [] [last]
  | inside {last a : AxisRef} {rest u : List AxisRef} (ready : Ready m last (a :: rest))
      (name_eq : last.name = a.name) (le : a.nextPreSize m ≤ last.nextPreSize m)
      (pass : Pass m last rest u) : Pass m last (a :: rest) u
  | extended {last a : AxisRef} {rest u : List AxisRef} (ready : Ready m last (a :: rest))
      (name_eq : last.name = a.name) (meets : a.preSize ≤ last.nextPreSize m)
      (lt : last.nextPreSize m < a.nextPreSize m) (dvd : last.preSize ∣ a.nextPreSize m)
      (pass : Pass m (extend m last a) rest u) : Pass m last (a :: rest) u
  | apart {last a : AxisRef} {rest u : List AxisRef} (ready : Ready m last (a :: rest))
      (gap : last.name = a.name → last.nextPreSize m < a.preSize)
      (pass : Pass m a rest u) : Pass m last (a :: rest) (last :: u)
  | barred {last a : AxisRef} {rest u : List AxisRef} (ready : Ready m last (a :: rest))
      (name_eq : last.name = a.name) (pre_lt : last.preSize < a.preSize)
      (overlap : a.preSize < last.nextPreSize m) (lt : last.nextPreSize m < a.nextPreSize m)
      (not_dvd : ¬ last.preSize ∣ a.nextPreSize m)
      (pass : Pass m a rest u) : Pass m last (a :: rest) (last :: u)

theorem absorb_cons_of_lt (hn : last.name = a.name)
    (hwide : last.preSize < last.nextPreSize m) (hlt : last.nextPreSize m < a.nextPreSize m) :
    absorb m last (a :: rest)
      = if a.preSize ≤ last.nextPreSize m ∧ last.preSize ∣ a.nextPreSize m
        then absorb m (extend m last a) rest else last :: absorb m a rest := by
  have hstop : max (a.nextPreSize m) (last.nextPreSize m) = a.nextPreSize m := by omega
  have hmeets : (last.overlaps a m || last.canMerge a m) = true ↔
      a.preSize ≤ last.nextPreSize m := by
    simp only [AxisRef.overlaps, AxisRef.canMerge, hn, Bool.or_eq_true, decide_eq_true_eq,
      true_and]
    omega
  rw [absorb, if_neg (by simp [AxisRef.contains, hlt]), hstop]
  exact if_congr (and_congr hmeets Nat.dvd_iff_mod_eq_zero.symm) rfl rfl

theorem absorb_cons_of_name_ne (hn : last.name ≠ a.name) :
    absorb m last (a :: rest) = last :: absorb m a rest := by
  have hnot : ¬ (last.overlaps a m || last.canMerge a m) = true := by
    simp [AxisRef.overlaps, AxisRef.canMerge, hn]
  rw [absorb, if_neg (by simp [AxisRef.contains, hn])]
  exact if_neg fun h => hnot h.1

theorem pass_absorb (h : Ready m last rest) : Pass m last rest (absorb m last rest) := by
  induction rest generalizing last with
  | nil => exact .done last h
  | cons a rest ih =>
    have hwide := h.wide last List.mem_cons_self
    by_cases hn : last.name = a.name
    · have hpre := h.preSize_le a (by simp) hn.symm
      rcases Nat.lt_or_ge (last.nextPreSize m) (a.nextPreSize m) with hlt | hle
      · rw [absorb_cons_of_lt hn hwide hlt]
        split
        · rename_i hjoin
          exact .extended h hn hjoin.1 hlt hjoin.2 (ih (h.extend hn hlt hjoin.2))
        · rename_i hjoin
          by_cases hmeet : a.preSize ≤ last.nextPreSize m
          · -- what begins together, or where the kept reference ends, ends at a multiple
            have hdvd : ¬ last.preSize ∣ a.nextPreSize m := fun hd => hjoin ⟨hmeet, hd⟩
            have hstart : last.preSize ≠ a.preSize := fun he =>
              hdvd (he ▸ preSize_dvd_nextPreSize a)
            have hend : last.nextPreSize m ≠ a.preSize := fun he =>
              hdvd (Nat.dvd_trans (preSize_dvd_nextPreSize last) (he ▸ preSize_dvd_nextPreSize a))
            exact .barred h hn (by omega) (by omega) hlt hdvd (ih h.next)
          · exact .apart h (fun _ => by omega) (ih h.next)
      · rw [absorb, if_pos (by simp [AxisRef.contains, hn, hpre, hle])]
        exact .inside h hn hle (ih h.skip)
    · rw [absorb_cons_of_name_ne hn]
      exact .apart h (fun he => absurd he hn) (ih h.next)

namespace Pass

theorem ready (h : Pass m last rest u) : Ready m last rest := by
  cases h <;> assumption

theorem valid (h : Pass m last rest u) : AllValid m u := by
  induction h with
  | done _ ready => exact ready.valid
  | inside _ _ _ _ ih => exact ih
  | extended _ _ _ _ _ _ ih => exact ih
  | apart ready _ _ ih => exact allValid_cons.2 ⟨(allValid_cons.1 ready.valid).1, ih⟩
  | barred ready _ _ _ _ _ _ ih => exact allValid_cons.2 ⟨(allValid_cons.1 ready.valid).1, ih⟩

theorem wide (h : Pass m last rest u) : ∀ a ∈ u, a.preSize < a.nextPreSize m := by
  induction h with
  | done _ ready => exact ready.wide
  | inside _ _ _ _ ih => exact ih
  | extended _ _ _ _ _ _ ih => exact ih
  | apart ready _ _ ih => exact List.forall_mem_cons.2 ⟨ready.wide _ List.mem_cons_self, ih⟩
  | barred ready _ _ _ _ _ _ ih =>
    exact List.forall_mem_cons.2 ⟨ready.wide _ List.mem_cons_self, ih⟩

/-- A reference that is dropped, or that makes the kept one longer, covers nothing else. -/
theorem covered_iff (h : Pass m last rest u) (name : String) (c : Nat) :
    Covered m u name c ↔ Covered m (last :: rest) name c := by
  induction h with
  | done => rfl
  | inside ready name_eq le _ ih => rw [ih, ready.covered_inside name_eq le]
  | extended ready name_eq meets lt dvd _ ih =>
    rw [ih, ready.covered_extend name_eq meets lt dvd]
  | apart _ _ _ ih => rw [covered_cons_iff, covered_cons_iff, ih]
  | barred _ _ _ _ _ _ _ ih => rw [covered_cons_iff, covered_cons_iff, ih]

/-- The first reference begins where the kept one did and ends no sooner. -/
theorem exists_cons (h : Pass m last rest u) : ∃ x l, u = x :: l ∧ x.name = last.name ∧
    x.preSize = last.preSize ∧ last.nextPreSize m ≤ x.nextPreSize m := by
  induction h with
  | done last => exact ⟨last, [], rfl, rfl, rfl, Nat.le_refl _⟩
  | inside _ _ _ _ ih => exact ih
  | extended _ _ _ lt dvd _ ih =>
    obtain ⟨x, l, hu, hn, hpre, hnext⟩ := ih
    rw [extend_name] at hn
    rw [extend_preSize] at hpre
    rw [extend_nextPreSize dvd] at hnext
    exact ⟨x, l, hu, hn, hpre, by omega⟩
  | @apart last => exact ⟨last, _, rfl, rfl, rfl, Nat.le_refl _⟩
  | @barred last => exact ⟨last, _, rfl, rfl, rfl, Nat.le_refl _⟩

/-- Of two neighbours that are kept the first one leads, and does not end where the second one
begins. -/
theorem isChain (h : Pass m last rest u) :
    u.IsChain fun x y => Leads m x y ∧ ¬ x.canMerge y m = true := by
  induction h with
  | done => exact .singleton _
  | inside _ _ _ _ ih => exact ih
  | extended _ _ _ _ _ _ ih => exact ih
  | apart ready gap pass ih =>
    obtain ⟨x, l, rfl, hn, hpre, hnext⟩ := pass.exists_cons
    refine .cons_cons ⟨?_, fun hm => ?_⟩ ih
    · rcases ready.starts _ List.mem_cons_self with hearlier | ⟨hlast, -⟩
      · exact .inl ((AxisRef.earlier_congr_right hn).2 hearlier)
      · have hgap := gap hlast
        have hwide := ready.wide _ List.mem_cons_self
        have hwide' := ready.next.wide _ List.mem_cons_self
        exact .inr ⟨hlast.trans hn.symm, by omega, by omega⟩
    · rw [AxisRef.canMerge_iff] at hm
      have hgap := gap (hm.1.trans hn)
      omega
  | barred ready name_eq pre_lt overlap lt _ pass ih =>
    obtain ⟨x, l, rfl, hn, hpre, hnext⟩ := pass.exists_cons
    refine .cons_cons ⟨.inr ⟨name_eq.trans hn.symm, by omega, by omega⟩, fun hm => ?_⟩ ih
    rw [AxisRef.canMerge_iff] at hm
    omega

theorem pairwise_leads (h : Pass m last rest u) : u.Pairwise (Leads m) :=
  (h.isChain.imp fun _ _ => And.left).pairwise

theorem isUnion (h : Pass m last rest u) : IsUnion m (last :: rest) u where
  sorted := h.pairwise_leads.imp AxisRef.Leads.isLE_compare
  valid := h.valid
  covered_iff := h.covered_iff

/-- The references that are kept do not overlap exactly if all grow evenly. -/
theorem pairwise_iff (h : Pass m last rest u) :
    (u.Pairwise fun x y => ¬ x.overlaps y m = true) ↔ GrowsEvenly m (last :: rest) := by
  induction h with
  | done last ready =>
    refine iff_of_true (List.pairwise_singleton _ _) fun a ha _ first hs => ?_
    obtain rfl := List.mem_singleton.1 ha
    exact ready.first_dvd hs
  | inside ready name_eq le _ ih => rw [ih, ready.growsEvenly_inside name_eq le]
  | extended ready name_eq meets lt dvd _ ih =>
    rw [ih, ready.growsEvenly_extend name_eq meets lt dvd]
  | apart ready gap pass ih =>
    rw [List.pairwise_cons, ih, ready.growsEvenly_apart gap, and_iff_right]
    intro y hy hov
    simp only [AxisRef.overlaps, decide_eq_true_eq] at hov
    -- what covers the start of `y` begins behind the gap
    have hcovered := Covered.of_mem hy (Nat.le_refl _) (pass.wide y hy)
    have := ready.lt_of_covered gap hov.1 ((pass.covered_iff _ _).1 hcovered)
    omega
  | barred ready name_eq pre_lt overlap lt not_dvd pass ih =>
    refine iff_of_false (fun hp => ?_)
      (ready.not_growsEvenly name_eq pre_lt overlap lt not_dvd)
    obtain ⟨x, l, rfl, hn, hpre, hnext⟩ := pass.exists_cons
    refine (List.pairwise_cons.1 hp).1 x List.mem_cons_self ?_
    simp only [AxisRef.overlaps, decide_eq_true_eq]
    exact ⟨name_eq.trans hn.symm, by omega, by omega⟩

end Pass

/-- Taking references up makes no more of them. -/
theorem length_absorb_le (last : AxisRef) (rest : List AxisRef) :
    (absorb m last rest).length ≤ rest.length + 1 := by
  induction rest generalizing last with
  | nil => exact Nat.le_refl 1
  | cons a rest ih =>
    rw [absorb]
    dsimp only
    split
    · exact Nat.le_succ_of_le (ih last)
    · split
      · exact Nat.le_succ_of_le (ih _)
      · exact Nat.succ_le_succ (ih a)

/-- A second pass leaves the kept references as they are exactly if of no two neighbours that
overlap the second one ends at a multiple of the start of the first one. -/
theorem absorb_eq_self_iff (hwide : ∀ a ∈ last :: rest, a.preSize < a.nextPreSize m)
    (h : (last :: rest).IsChain fun x y => Leads m x y ∧ ¬ x.canMerge y m = true) :
    absorb m last rest = last :: rest ↔ (last :: rest).IsChain fun x y =>
      ¬ (x.overlaps y m = true ∧ x.preSize ∣ y.nextPreSize m) := by
  induction rest generalizing last with
  | nil => exact iff_of_true rfl (.singleton last)
  | cons a rest ih =>
    obtain ⟨⟨hleads, hmerge⟩, htail⟩ := List.isChain_cons_cons.1 h
    obtain ⟨hlast, hwide⟩ := List.forall_mem_cons.1 hwide
    have hkept : absorb m last (a :: rest) = last :: absorb m a rest →
        ¬ (last.overlaps a m = true ∧ last.preSize ∣ a.nextPreSize m) →
        (absorb m last (a :: rest) = last :: a :: rest ↔ (last :: a :: rest).IsChain fun x y =>
          ¬ (x.overlaps y m = true ∧ x.preSize ∣ y.nextPreSize m)) := fun he hnot => by
      rw [he, List.cons_inj_right, ih hwide htail, List.isChain_cons_cons, and_iff_right hnot]
    by_cases hn : last.name = a.name
    · have hnext := (hleads.bounds hn).2
      have hjoin : a.preSize ≤ last.nextPreSize m ↔ last.overlaps a m = true := by
        simp only [AxisRef.canMerge, AxisRef.overlaps, hn, true_and, decide_eq_true_eq] at hmerge ⊢
        omega
      have hstep : absorb m last (a :: rest) = _ := absorb_cons_of_lt hn hlast hnext
      by_cases hboth : last.overlaps a m = true ∧ last.preSize ∣ a.nextPreSize m
      · rw [if_pos ⟨hjoin.2 hboth.1, hboth.2⟩] at hstep
        refine iff_of_false (fun he => ?_) fun hc => (List.isChain_cons_cons.1 hc).1 hboth
        have hle := length_absorb_le (m := m) (extend m last a) rest
        rw [← hstep, he, List.length_cons, List.length_cons] at hle
        omega
      · rw [if_neg fun h => hboth ⟨hjoin.1 h.1, h.2⟩] at hstep
        exact hkept hstep hboth
    · refine hkept (absorb_cons_of_name_ne hn) fun hboth => hn ?_
      have hov := hboth.1
      rw [AxisRef.overlaps, decide_eq_true_eq] at hov
      exact hov.1

end pass

section union

theorem combine_eq (l r : List AxisRef) : combine m l r = match sort m (l ++ r) with
    | [] => []
    | first :: rest => absorb m first rest := rfl

theorem combine_comm (h : AllValid m (l ++ r)) : combine m r l = combine m l r := by
  rw [combine_eq, combine_eq, sort_congr h List.perm_append_comm]

theorem combine_of_perm (hv : AllValid m (l ++ r)) (hperm : (l ++ r).Perm (last :: rest))
    (hsorted : (last :: rest).Pairwise fun a b => (a.compare b m).isLE = true) :
    combine m l r = absorb m last rest := by
  rw [combine_eq, sort_congr hv hperm, sort_eq_self hsorted]

/-- The union of lists that are not empty is made in one pass. -/
theorem exists_pass (hv : AllValid m (l ++ r))
    (hwide : ∀ a ∈ l ++ r, a.preSize < a.nextPreSize m) (hne : l ++ r ≠ []) :
    ∃ last rest, (last :: rest).Perm (l ++ r) ∧ Pass m last rest (combine m l r) := by
  have hperm := sort_perm (m := m) (l ++ r)
  have hsorted := pairwise_sort (m := m) (l ++ r)
  rw [combine_eq]
  cases hsort : sort m (l ++ r) with
  | nil =>
    rw [hsort] at hperm
    exact absurd hperm.nil_eq.symm hne
  | cons last rest =>
    rw [hsort] at hperm hsorted
    refine ⟨last, rest, hperm, pass_absorb ⟨hv.subset hperm.subset,
      fun a ha => hwide a (hperm.subset ha), fun a ha => ?_, hsorted.of_cons⟩⟩
    exact AxisRef.startsBy_of_isLE_compare (List.rel_of_pairwise_cons hsorted ha)

theorem Pass.combine_nil_iff (h : Pass m last rest u) : combine m u [] = u ↔
    u.IsChain fun a b => ¬ (a.overlaps b m = true ∧ a.preSize ∣ b.nextPreSize m) := by
  obtain ⟨x, l, rfl, -⟩ := h.exists_cons
  have hunion := h.isUnion
  rw [combine_of_perm ((List.append_nil (x :: l)).symm ▸ hunion.valid)
    (List.Perm.of_eq (List.append_nil _)) hunion.sorted]
  exact absorb_eq_self_iff h.wide h.isChain

/-- The union of lists of valid references to axes of size above 1 is sorted, covers what they
cover, and does not depend on their order. It overlaps nowhere exactly if the references grow
evenly, and is its own union exactly if no two neighbours can still be joined. -/
theorem pairwise_combine_iff (hv : AllValid m (l ++ r))
    (hsize : ∀ a ∈ l ++ r, 2 ≤ a.fullSize m) :
    IsUnion m (l ++ r) (combine m l r) ∧ combine m r l = combine m l r ∧
      ((combine m l r).Pairwise (fun a b => ¬ a.overlaps b m = true) ↔ GrowsEvenly m (l ++ r)) ∧
      (combine m (combine m l r) [] = combine m l r ↔ (combine m l r).IsChain fun a b =>
        ¬ (a.overlaps b m = true ∧ a.preSize ∣ b.nextPreSize m)) := by
  by_cases hne : l ++ r = []
  · obtain ⟨rfl, rfl⟩ := List.append_eq_nil_iff.1 hne
    have hnil : combine m [] [] = [] := by
      rw [combine_eq, List.append_nil, sort_eq_self .nil]
    rw [hnil, hnil]
    exact ⟨⟨.nil, nofun, fun _ _ => Iff.rfl⟩, rfl, iff_of_true .nil nofun, iff_of_true rfl .nil⟩
  · have hwide : ∀ a ∈ l ++ r, a.preSize < a.nextPreSize m := fun a ha =>
      (hv a ha).preSize_lt_nextPreSize ((hv a ha).one_lt_size_of_two_le (hsize a ha))
    obtain ⟨last, rest, hperm, hpass⟩ := exists_pass hv hwide hne
    have hunion := hpass.isUnion
    exact ⟨⟨hunion.sorted, hunion.valid, fun name c => (hunion.covered_iff name c).trans
        (covered_perm hperm)⟩, combine_comm hv, hpass.pairwise_iff.trans (growsEvenly_perm hperm),
      hpass.combine_nil_iff⟩

/-- Two windows that meet are joined to the one that they overlap. -/
theorem pairwise_combine_iff_grid :
    let m := Mesh.grid 36 2 (by decide) (by decide)
    let l : List AxisRef := [.full "y", .sub "x" 3 2]
    let r : List AxisRef := [.sub "x" 2 2, .sub "x" 6 3]
    AllValid m (l ++ r) ∧ (∀ a ∈ l ++ r, 2 ≤ a.fullSize m) ∧
      combine m l r = [.sub "x" 2 9, .full "y"] ∧
      IsUnion m (l ++ r) (combine m l r) ∧ combine m r l = combine m l r ∧
      ((combine m l r).Pairwise (fun a b => ¬ a.overlaps b m = true) ↔ GrowsEvenly m (l ++ r)) ∧
      (combine m (combine m l r) [] = combine m l r ↔ (combine m l r).IsChain fun a b =>
        ¬ (a.overlaps b m = true ∧ a.preSize ∣ b.nextPreSize m)) := by
  intro m l r
  have hv : AllValid m (l ++ r) := by
    unfold AllValid AxisRef.Valid
    decide
  have hsize : ∀ a ∈ l ++ r, 2 ≤ a.fullSize m := by decide
  have hunion : combine m l r = [.sub "x" 2 9, .full "y"] := by
    have hperm : (l ++ r).Perm [.sub "x" 2 2, .sub "x" 3 2, .sub "x" 6 3, .full "y"] := by decide
    rw [combine_of_perm hv hperm (by decide)]
    decide
  exact ⟨hv, hsize, hunion, pairwise_combine_iff hv hsize⟩

/-- A window that is kept because its end does not fit may grow until it does; only a second pass
joins it to the one it overlaps. -/
theorem not_pairwise_combine_thirtySix :
    let m := Mesh.grid 36 2 (by decide) (by decide)
    let l : List AxisRef := [.sub "x" 2 2]
    let r : List AxisRef := [.sub "x" 3 3, .sub "x" 9 2]
    AllValid m (l ++ r) ∧ (∀ a ∈ l ++ r, 2 ≤ a.fullSize m) ∧
      ¬ (combine m l r).Pairwise (fun a b => ¬ a.overlaps b m = true) ∧
      combine m (combine m l r) [] ≠ combine m l r := by
  intro m l r
  have hv : AllValid m (l ++ r) := by
    unfold AllValid AxisRef.Valid
    decide
  have hu : combine m l r = [.sub "x" 2 2, .sub "x" 3 6] := by
    rw [combine_of_perm hv (.refl _) (by decide)]
    decide
  have hvu : AllValid m [.sub "x" 2 2, .sub "x" 3 6] := by
    unfold AllValid AxisRef.Valid
    decide
  have hu' : combine m [.sub "x" 2 2, .sub "x" 3 6] [] = [.sub "x" 2 9] := by
    rw [combine_of_perm hvu (.refl _) (by decide)]
    decide
  rw [hu, hu']
  exact ⟨hv, by decide, by decide, by decide⟩

end union

end AxisList
end MeshSharding
