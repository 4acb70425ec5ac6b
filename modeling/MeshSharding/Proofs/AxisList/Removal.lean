import MeshSharding.Proofs.AxisList.Places
import MeshSharding.Proofs.AxisList.Subdivision

/-! Removing suffixes whose references were never checked. Cutting drops references that run
through no place, whatever they are, but it keeps the places. So the places of a list are those
of what is left of it, followed by those of the suffix. -/
namespace MeshSharding
namespace AxisList

variable {m : Mesh} {axes suffix rest all l : List AxisRef} {bounds : List Nat} {a : AxisRef}

section cut

/-- The windows between the bounds of a ladder run through the places from its first to its
last bound. -/
theorem places_windows (a : AxisRef) (c q : Nat) (mid : List Nat)
    (h : Ladder (c :: (mid ++ [q]))) :
    places m ((steps (c :: (mid ++ [q]))).map fun s =>
      .ofWindow a.name s.1 (s.2 / s.1) (a.fullSize m))
      = (List.range' c (q - c)).map fun p => (a.name, p) := by
  induction mid generalizing c with
  | nil =>
    have hcq : c ∣ q := h.dvd c (by simp) q (by simp) <| by
      have := (List.pairwise_cons.1 h.sorted).1 q (by simp); omega
    simp [steps, places, AxisRef.places, AxisRef.ofWindow_nextPreSize, Nat.mul_div_cancel' hcq]
  | cons d mid ih =>
    have hlt : c < d := (List.pairwise_cons.1 h.sorted).1 d (by simp)
    have hlt' : d < q := (List.pairwise_cons.1 (List.pairwise_cons.1 h.sorted).2).1 q (by simp)
    have hcd : c ∣ d := h.dvd c (by simp) d (by simp) (by omega)
    have hsteps : steps (c :: (d :: mid ++ [q])) = (c, d) :: steps (d :: (mid ++ [q])) := rfl
    have hsum : q - c = d - c + (q - d) := by omega
    have hstart : d = c + (d - c) := by omega
    rw [hsteps, List.map_cons, places_cons, ih d (h.sublist (List.sublist_cons_self c _)),
      hsum, ← List.range'_append_1, List.map_append, ← hstart]
    simp [AxisRef.places, AxisRef.ofWindow_nextPreSize, Nat.mul_div_cancel' hcd]

/-- Cutting a window keeps its places. -/
theorem places_cutAt (h : Ladder bounds) (ha : a.Upright m) (hp : a.preSize ∈ bounds)
    (hq : a.nextPreSize m ∈ bounds) : places m (cutAt m bounds a) = a.places m := by
  rcases Nat.lt_or_eq_of_le ha with hlt | heq
  · obtain ⟨mid, hmid⟩ := span_eq h.sorted hp hq hlt
    have hladder := h.sublist (l := a.preSize :: (mid ++ [a.nextPreSize m]))
      (hmid ▸ List.filter_sublist)
    rw [cutAt_eq, hmid, places_windows a _ _ mid hladder, AxisRef.places]
  · rw [cutAt_eq, ← heq, steps_span_self h.sorted]
    simp [places, AxisRef.places, ← heq]

/-- The parts of a cut window end no earlier than they begin. -/
theorem allUpright_cutAt (h : Ladder bounds) : AllUpright m (cutAt m bounds a) := by
  intro x hx
  rw [cutAt_eq] at hx
  obtain ⟨s, hs, rfl⟩ := List.mem_map.1 hx
  have hsub : (span bounds a.preSize (a.nextPreSize m)).Sublist bounds := List.filter_sublist
  have hlt : s.1 < s.2 :=
    forall_mem_steps_iff.2 (List.Pairwise.isChain (h.sorted.sublist hsub)) s hs
  obtain ⟨h1, h2⟩ := mem_of_mem_steps hs
  have hdvd : s.1 ∣ s.2 := h.dvd _ (hsub.subset h1) _ (hsub.subset h2) (Nat.le_of_lt hlt)
  rw [AxisRef.Upright, AxisRef.ofWindow_preSize, AxisRef.ofWindow_nextPreSize,
    Nat.mul_div_cancel' hdvd]
  exact Nat.le_of_lt hlt

end cut

section atoms

theorem places_atomsOf (ha : a ∈ all) (hu : a.Upright m) :
    places m (atomsOf m all (opaqueAxes m all) a) = a.places m := by
  have hb := within_boundaries (m := m) all a ha
  unfold atomsOf
  split
  · simp [places]
  · rename_i hn
    exact places_cutAt (not_mem_opaqueAxes_iff.1 hn) hu hb.1 hb.2

theorem places_atoms (hl : l ⊆ all) (hu : AllUpright m l) :
    places m (atoms m all l) = places m l := by
  induction l with
  | nil => rfl
  | cons a rest ih =>
    obtain ⟨ha, hrest⟩ := List.forall_mem_cons.1 hu
    rw [atoms, List.flatMap_cons, places_append, places_cons,
      places_atomsOf (hl List.mem_cons_self) ha]
    exact congrArg _ (ih (fun x hx => hl (List.mem_cons_of_mem a hx)) hrest)

theorem allUpright_atoms (hu : AllUpright m l) : AllUpright m (atoms m all l) := by
  intro x hx
  obtain ⟨a, ha, hxa⟩ := List.mem_flatMap.1 hx
  unfold atomsOf at hxa
  split at hxa
  · rw [List.mem_singleton.1 hxa]
    exact hu a ha
  · rename_i hn
    exact allUpright_cutAt (not_mem_opaqueAxes_iff.1 hn) x hxa

/-- The atoms of valid references are valid, whatever else the axes are cut along. -/
theorem allValid_atoms_of_allValid (hl : l ⊆ all) (hv : AllValid m l) :
    AllValid m (atoms m all l) := by
  intro x hx
  obtain ⟨a, ha, hxa⟩ := List.mem_flatMap.1 hx
  unfold atomsOf at hxa
  split at hxa
  · rw [List.mem_singleton.1 hxa]
    exact hv a ha
  · rename_i hn
    exact (mem_cutAt (not_mem_opaqueAxes_iff.1 hn) (hv a ha)
      (within_boundaries all a (hl ha)).2 hxa).1

/-- No boundary follows one at zero. -/
theorem eq_zero_of_isUndefined_eq_false (hs : bounds.Pairwise (· < ·))
    (h : isUndefined bounds = false) (h0 : 0 ∈ bounds) : ∀ c ∈ bounds, c = 0 := by
  cases bounds with
  | nil => nofun
  | cons b tail =>
    have hb : b = 0 := by
      rcases List.mem_cons.1 h0 with rfl | hmem
      · rfl
      · exact absurd ((List.pairwise_cons.1 hs).1 0 hmem) (Nat.not_lt_zero b)
    cases tail with
    | nil => simpa using hb
    | cons d tail => simp [isUndefined, steps, hb] at h

/-- A window of size 0 would end at a boundary that divides nothing. -/
theorem upright_of_isUndefined_eq_false (ha : a ∈ all)
    (h : isUndefined (boundaries m all a.name) = false) : a.Upright m := by
  obtain ⟨hp, hq⟩ := within_boundaries (m := m) all a ha
  rcases Nat.eq_zero_or_pos (a.size m) with hsize | hpos
  · have hnext : a.nextPreSize m = 0 := by simp [AxisRef.nextPreSize, hsize]
    rw [hnext] at hq
    have hzero := eq_zero_of_isUndefined_eq_false (sorted_boundaries all a.name) h hq _ hp
    rw [AxisRef.Upright, hzero]
    exact Nat.zero_le _
  · exact Nat.le_mul_of_pos_right _ hpos

theorem atomize_eq_ok {lists : List (List AxisRef)} {cut : Subdivision}
    (h : atomize m lists = .ok cut) :
    cut = ⟨lists.map (atoms m lists.flatten), opaqueAxes m lists.flatten⟩ ∧
      AllUpright m lists.flatten := by
  unfold atomize at h
  dsimp only at h
  split at h
  · cases h
  · rename_i hany
    cases h
    refine ⟨rfl, fun a ha => upright_of_isUndefined_eq_false ha ?_⟩
    simpa using List.any_eq_false.1 (Bool.eq_false_iff.2 hany) a ha

end atoms

section suffix

/-- A suffix is removed where its atoms are the last atoms of the list. -/
theorem exists_of_removeSuffix (h : removeSuffix m axes suffix = .ok (some rest)) :
    AllUpright m (axes ++ suffix) ∧ ∃ front,
      front ++ atoms m (axes ++ suffix) suffix = atoms m (axes ++ suffix) axes ∧
        rest = mergeAdjacent m front := by
  have hflat : [axes, suffix].flatten = axes ++ suffix := by simp
  unfold removeSuffix at h
  obtain ⟨cut, hcut, h⟩ := bind_eq_ok_iff.1 h
  obtain ⟨rfl, hupright⟩ := atomize_eq_ok hcut
  rw [hflat] at h hupright
  simp only [List.map_cons, List.map_nil] at h
  split at h
  · rename_i hsuffix
    obtain ⟨front, hfront⟩ := List.isSuffixOf_iff_suffix.1 hsuffix
    cases h
    refine ⟨hupright, front, hfront, ?_⟩
    rw [← hfront, List.length_append, Nat.add_sub_cancel, List.take_left]
  · cases h

/-- What is left and the suffix run through the places of the list, one behind the other. -/
theorem places_removeSuffix (h : removeSuffix m axes suffix = .ok (some rest)) :
    AllUpright m rest ∧ AllUpright m suffix ∧
      places m axes = places m rest ++ places m suffix := by
  obtain ⟨hupright, front, hfront, rfl⟩ := exists_of_removeSuffix h
  obtain ⟨haxes, hsuffix⟩ := allUpright_append.1 hupright
  have hatoms : AllUpright m (atoms m (axes ++ suffix) axes) := allUpright_atoms haxes
  rw [← hfront, allUpright_append] at hatoms
  refine ⟨hatoms.1.mergeAdjacent, hsuffix, ?_⟩
  rw [places_mergeAdjacent hatoms.1, ← places_atoms (List.subset_append_right axes suffix) hsuffix,
    ← places_append, hfront, places_atoms (List.subset_append_left axes suffix) haxes]

/-- Of valid references, valid ones are removed, even along a suffix that is not valid. -/
theorem exists_removed (hv : AllValid m axes) (h : removeSuffix m axes suffix = .ok (some rest)) :
    ∃ removed, AllValid m (rest ++ removed) ∧ core m (rest ++ removed) = core m axes := by
  obtain ⟨hupright, front, hfront, rfl⟩ := exists_of_removeSuffix h
  have hatoms := allValid_atoms_of_allValid (List.subset_append_left axes suffix) hv
  rw [← hfront, allValid_append] at hatoms
  have hmerged := allValid_append.2 ⟨hatoms.1.mergeAdjacent, hatoms.2⟩
  refine ⟨_, hmerged, (core_eq_iff hmerged hv).2 ?_⟩
  rw [places_append, places_mergeAdjacent hatoms.1.upright, ← places_append, hfront,
    places_atoms (List.subset_append_left axes suffix) (allUpright_append.1 hupright).1]

/-- What is left of a list makes it up again with the suffix that was removed. -/
theorem removeSuffix_eq_some (hv : AllValid m (axes ++ suffix))
    (h : removeSuffix m axes suffix = .ok (some rest)) :
    AllValid m rest ∧ core m (rest ++ suffix) = core m axes := by
  obtain ⟨haxes, hsuffix⟩ := allValid_append.1 hv
  obtain ⟨-, -, hplaces⟩ := places_removeSuffix h
  obtain ⟨_, hremoved, -⟩ := exists_removed haxes h
  have hrest := (allValid_append.1 hremoved).1
  refine ⟨hrest, (core_eq_iff (allValid_append.2 ⟨hrest, hsuffix⟩) haxes).2 ?_⟩
  rw [places_append, hplaces]

end suffix

end AxisList
end MeshSharding
