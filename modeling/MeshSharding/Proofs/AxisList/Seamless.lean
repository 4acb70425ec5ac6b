import MeshSharding.Proofs.AxisList.Subdivision

/-! Seamless lists, in which no two neighbours on an opaque axis can be merged. References to
opaque axes are not cut into atoms, so cutting sees whether they are merged. A suffix is
removed exactly up to cores from a seamless list that shares no opaque axis with what stays. -/
namespace MeshSharding
namespace AxisList

variable {m : Mesh} {all l r axes suffix rest : List AxisRef} {a s : AxisRef} {name : String}

/-- No two neighbours of size above 1 can be merged if their axis is opaque in the list. -/
def Seamless (m : Mesh) (l : List AxisRef) : Prop :=
  (trim m l).IsChain fun a b => a.canMerge b m = true → a.name ∉ opaqueAxes m l

instance : Decidable (Seamless m l) := inferInstanceAs (Decidable (List.IsChain _ _))

theorem mergeAdjacent_core (l : List AxisRef) : mergeAdjacent m (core m l) = core m l :=
  mergeAdjacent_mergeAdjacent _

/-- Merging keeps the axes that a list refers to. -/
theorem exists_name_mergeAdjacent_iff (l : List AxisRef) (name : String) :
    (∃ a ∈ mergeAdjacent m l, a.name = name) ↔ ∃ a ∈ l, a.name = name := by
  refine iff_of_eq (apply_mergeAdjacent (f := fun l => ∃ a ∈ l, a.name = name)
    (P := fun _ => True) (fun _ _ => trivial) (fun _ _ _ _ _ => trivial) ?cons ?merge)
  case cons =>
    intro a l r heq
    simp only [List.exists_mem_cons_iff, heq]
  case merge =>
    intro a b l _ _ hm
    simp only [List.exists_mem_cons_iff, AxisRef.merge_name, name_eq_of_canMerge hm, ← or_assoc,
      or_self]

theorem exists_name_of_mem_mergeAdjacent (h : a ∈ mergeAdjacent m l) :
    ∃ b ∈ l, b.name = a.name :=
  (exists_name_mergeAdjacent_iff l a.name).1 ⟨a, h, rfl⟩

theorem exists_name_of_mem_core (h : a ∈ core m l) : ∃ b ∈ l, b.name = a.name :=
  have ⟨b, hb, hn⟩ := exists_name_of_mem_mergeAdjacent h
  ⟨b, trim_subset l hb, hn⟩

/-- References to other axes are not merged with what is in front of them. -/
theorem mem_mergeAdjacent_append (hs : s ∈ mergeAdjacent m r) (hl : ∀ a ∈ l, a.name ≠ s.name) :
    s ∈ mergeAdjacent m (l ++ r) := by
  induction l with
  | nil => exact hs
  | cons a rest ih =>
    have hmem := ih fun x hx => hl x (by simp [hx])
    have ha := hl a (by simp)
    rw [List.cons_append, mergeAdjacent_cons]
    revert hmem
    cases mergeAdjacent m (rest ++ r) with
    | nil => nofun
    | cons b tail =>
      intro hmem
      by_cases hm : a.canMerge b m = true
      · rw [push_cons_of_canMerge hm]
        rcases List.mem_cons.1 hmem with rfl | hmem
        · exact absurd (name_eq_of_canMerge hm) ha
        · exact List.mem_cons_of_mem _ hmem
      · rw [push_cons_of_not hm]
        exact List.mem_cons_of_mem _ hmem

theorem not_mem_opaqueAxes_of_subset (h : name ∉ opaqueAxes m all)
    (hs : boundaries m l name ⊆ boundaries m all name) : name ∉ opaqueAxes m l :=
  not_mem_opaqueAxes_iff.2
    (ladder_of_subset (sorted_boundaries l name) (not_mem_opaqueAxes_iff.1 h) hs)

theorem not_mem_opaqueAxes_of_within {bounds : String → List Nat} (hw : Within m bounds l)
    (h : Ladder (bounds name)) : name ∉ opaqueAxes m l := by
  refine not_mem_opaqueAxes_iff.2 (ladder_of_subset (sorted_boundaries l name) h fun c hc => ?_)
  obtain ⟨a, ha, rfl, rfl | rfl⟩ := mem_boundaries.1 hc
  · exact (hw a ha).1
  · exact (hw a ha).2

section seamless

theorem seamless_of_opaqueAxes_eq_nil (h : opaqueAxes m all = []) (hs : l ⊆ all) :
    Seamless m l := by
  have hclear : ∀ name, name ∉ opaqueAxes m l := fun name => by
    have hall : name ∉ opaqueAxes m all := by simp [h]
    refine not_mem_opaqueAxes_of_subset hall fun c hc => ?_
    obtain ⟨a, ha, hca⟩ := mem_boundaries.1 hc
    exact mem_boundaries.2 ⟨a, hs ha, hca⟩
  exact List.Pairwise.isChain (List.pairwise_of_forall fun a _ _ => hclear a.name)

theorem seamless_core (l : List AxisRef) : Seamless m (core m l) := by
  rw [Seamless, trim_eq_self one_lt_size_of_mem_core]
  exact (separated_core l).imp fun a b hsep hm => absurd hm hsep

/-- Merging references of size above 1 leaves no seam. -/
theorem seamless_mergeAdjacent (h : ∀ a ∈ l, 1 < a.size m) : Seamless m (mergeAdjacent m l) := by
  have := seamless_core (m := m) l
  rwa [core, trim_eq_self h] at this

/-- Appending references to axes that are not opaque makes no seam. -/
theorem Seamless.append (hl : Seamless m l)
    (hr : ∀ b ∈ r, b.name ∉ opaqueAxes m (l ++ r)) : Seamless m (l ++ r) := by
  have hclear : ∀ b ∈ trim m r, b.name ∉ opaqueAxes m (l ++ r) := fun b hb =>
    hr b (trim_subset r hb)
  have hright : (trim m r).IsChain fun a b =>
      a.canMerge b m = true → a.name ∉ opaqueAxes m (l ++ r) :=
    List.Pairwise.isChain (List.Pairwise.imp_of_mem (fun ha _ _ _ => hclear _ ha)
      (List.pairwise_of_forall fun _ _ => trivial))
  rw [Seamless, trim_append]
  refine hl.imp (fun a b hab hm hop => ?_) |>.append hright fun a _ b hb hm => ?_
  · refine not_mem_opaqueAxes_of_subset (hab hm) (fun c hc => ?_) hop
    obtain ⟨x, hx, hn, hc⟩ := mem_boundaries.1 hc
    rcases List.mem_append.1 hx with hx | hx
    · exact mem_boundaries.2 ⟨x, hx, hn, hc⟩
    · exact absurd (hn ▸ hop) (hr x hx)
  · rw [name_eq_of_canMerge hm]
    exact hclear b (List.mem_of_mem_head? hb)

/-- The first reference of size above 1 begins as before after merging. -/
theorem exists_head_trim (hv : AllValid m l) {x : AxisRef}
    (hx : x ∈ (trim m (mergeAdjacent m l)).head?) :
    ∃ y ∈ (trim m l).head?, ∀ a : AxisRef, a.canMerge x m = a.canMerge y m := by
  obtain ⟨xs, hxs⟩ := List.head?_eq_some_iff.1 hx
  have hcore : mergeAdjacent m (x :: xs) = mergeAdjacent m (trim m l) := by
    rw [← hxs]
    exact core_mergeAdjacent hv
  cases hl : trim m l with
  | nil =>
    rw [hl, mergeAdjacent_nil, mergeAdjacent_eq_nil_iff] at hcore
    cases hcore
  | cons y ys =>
    rw [hl] at hcore
    refine ⟨y, rfl, fun a => ?_⟩
    cases hc : mergeAdjacent m (y :: ys) with
    | nil => cases mergeAdjacent_eq_nil_iff.1 hc
    | cons c rest =>
      obtain ⟨hnx, hpx⟩ := head_of_mergeAdjacent_cons (hcore.trans hc)
      obtain ⟨hny, hpy⟩ := head_of_mergeAdjacent_cons hc
      simp [AxisRef.canMerge, ← hnx, ← hpx, ← hny, ← hpy]

/-- Neighbours that can be merged after merging could be merged before. -/
theorem isChain_trim_mergeAdjacent {P : String → Prop} (hv : AllValid m l)
    (h : (trim m l).IsChain fun a b => a.canMerge b m = true → P a.name) :
    (trim m (mergeAdjacent m l)).IsChain fun a b => a.canMerge b m = true → P a.name := by
  induction l with
  | nil => exact .nil
  | cons a rest ih =>
    rw [allValid_cons] at hv
    have hmerged := hv.2.mergeAdjacent
    have hhead := fun x => exists_head_trim hv.2 (x := x)
    rw [mergeAdjacent_cons]
    by_cases hs : 1 < a.size m
    · have htrim : ∀ l, trim m (a :: l) = a :: trim m l := fun l =>
        List.filter_cons_of_pos (by simpa using hs)
      rw [htrim, List.isChain_cons] at h
      have hrest := ih hv.2 h.2
      revert hmerged hhead hrest
      cases mergeAdjacent m rest with
      | nil => exact fun _ _ _ => by simp [push, htrim]
      | cons b tail =>
        intro hmerged hhead hrest
        rw [allValid_cons] at hmerged
        by_cases hm : a.canMerge b m = true
        · have hsb := (one_lt_size_iff_of_canMerge hv.1 hmerged.1 hm).1 hs
          have hsab : 1 < (a.merge b m).size m := by
            rw [AxisRef.merge_size]
            exact Nat.one_lt_mul_iff.2 ⟨by omega, by omega, .inl hs⟩
          rw [trim, List.filter_cons_of_pos (by simpa using hsb)] at hrest
          rw [push_cons_of_canMerge hm, trim, List.filter_cons_of_pos (by simpa using hsab)]
          refine hrest.imp_head fun {z} hbz hz => ?_
          rw [AxisRef.canMerge_merge_left hm] at hz
          rw [AxisRef.merge_name, name_eq_of_canMerge hm]
          exact hbz hz
        · rw [push_cons_of_not hm, htrim]
          refine List.isChain_cons.2 ⟨fun x hx hax => ?_, hrest⟩
          obtain ⟨y, hy, heq⟩ := hhead x hx
          exact h.1 y hy (heq a ▸ hax)
    · have htrim : ∀ l, trim m (a :: l) = trim m l := fun l =>
        List.filter_cons_of_neg (by simpa using hs)
      rw [htrim] at h
      have hrest := ih hv.2 h
      revert hmerged hrest
      cases mergeAdjacent m rest with
      | nil => exact fun _ _ => by simp [push, htrim]
      | cons b tail =>
        intro hmerged hrest
        rw [allValid_cons] at hmerged
        by_cases hm : a.canMerge b m = true
        · have hsb := (one_lt_size_iff_of_canMerge hv.1 hmerged.1 hm).not.1 hs
          have hpos := hmerged.1.size_pos
          have hsab : ¬ 1 < (a.merge b m).size m := by
            rw [AxisRef.merge_size, Nat.one_lt_mul_iff]
            omega
          rw [trim, List.filter_cons_of_neg (by simpa using hsb)] at hrest
          rwa [push_cons_of_canMerge hm, trim, List.filter_cons_of_neg (by simpa using hsab)]
        · rwa [push_cons_of_not hm, htrim]

/-- Merging keeps a list seamless. -/
theorem Seamless.mergeAdjacent (hv : AllValid m l) (h : Seamless m l) :
    Seamless m (mergeAdjacent m l) := by
  have hwithin := (within_boundaries (m := m) l).mergeAdjacent
  refine (isChain_trim_mergeAdjacent (P := (· ∉ opaqueAxes m l)) hv h).imp fun a b hab hm => ?_
  exact not_mem_opaqueAxes_of_within hwithin (not_mem_opaqueAxes_iff.1 (hab hm))

end seamless

section cut

/-- References of size 1 have no atoms. -/
theorem atoms_trim (hall : AllValid m all) (hl : AllValid m l) :
    atoms m all (trim m l) = atoms m all l := by
  induction l with
  | nil => rfl
  | cons a rest ih =>
    rw [allValid_cons] at hl
    have hrest := ih hl.2
    have hpos := hl.1.size_pos
    unfold trim atoms at hrest ⊢
    by_cases hs : 1 < a.size m
    · simp [hs, hrest]
    · have hn : a.name ∉ opaqueAxes m all := fun hn =>
        hs (one_lt_size_of_mem_opaqueAxes hall hl.1 hn)
      have h1 : a.size m = 1 := by omega
      simp [h1, atomsOf, hn, cutAt_eq_nil (sorted_boundaries all a.name) h1, hrest]

/-- Where only windows of axes that are cut are merged, merging keeps the atoms. -/
theorem atoms_mergeAdjacent (hl : AllValid m l) (hw : Within m (boundaries m all) l)
    (h : l.IsChain fun a b => a.canMerge b m = true → a.name ∉ opaqueAxes m all) :
    atoms m all (mergeAdjacent m l) = atoms m all l := by
  induction l with
  | nil => rfl
  | cons a rest ih =>
    rw [allValid_cons] at hl
    rw [List.isChain_cons] at h
    have hrest := ih hl.2 (hw.subset (List.subset_cons_self ..)) h.2
    have hv := hl.2.mergeAdjacent
    have hcons : atoms m all (a :: rest) = atomsOf m all (opaqueAxes m all) a
        ++ atoms m all rest := rfl
    rw [mergeAdjacent_cons, hcons, ← hrest]
    revert hv
    cases hmerged : mergeAdjacent m rest with
    | nil => intro; rfl
    | cons b tail =>
      intro hv
      rw [allValid_cons] at hv
      by_cases hm : a.canMerge b m = true
      · have hn : a.name ∉ opaqueAxes m all := by
          cases hr : rest with
          | nil => simp [hr] at hmerged
          | cons y ys =>
            obtain ⟨hny, hpy⟩ := head_of_mergeAdjacent_cons (hr ▸ hmerged)
            refine h.1 y (by simp [hr]) ?_
            simpa [AxisRef.canMerge, hny, hpy] using hm
        have hname := name_eq_of_canMerge hm
        have hcut : ∀ x : AxisRef, x.name = a.name → atomsOf m all (opaqueAxes m all) x
            = cutAt m (boundaries m all a.name) x := fun x hx => by simp [atomsOf, hx, hn]
        rw [push_cons_of_canMerge hm]
        simp only [atoms, List.flatMap_cons]
        rw [hcut a rfl, hcut b hname.symm, hcut _ (AxisRef.merge_name ..),
          cutAt_merge (sorted_boundaries all a.name) hl.1 hv.1 hm (hw a (by simp)).2,
          List.append_assoc]
      · rw [push_cons_of_not hm]
        rfl

theorem atoms_core (hall : AllValid m all) (hl : AllValid m l)
    (hw : Within m (boundaries m all) l)
    (h : (trim m l).IsChain fun a b => a.canMerge b m = true → a.name ∉ opaqueAxes m all) :
    atoms m all (core m l) = atoms m all l := by
  have hsub := trim_subset (m := m) l
  rw [core, atoms_mergeAdjacent (hl.subset hsub) (hw.subset hsub) h, atoms_trim hall hl]

end cut

section removeSuffix

/-- Behind a part without the axis, the boundaries of a suffix are boundaries of the list. -/
theorem boundaries_append_subset (hx : core m suffix = suffix)
    (h : core m axes = core m (rest ++ suffix)) (hr : ∀ a ∈ rest, a.name ≠ name) :
    boundaries m (axes ++ suffix) name ⊆ boundaries m axes name := by
  intro c hc
  obtain ⟨s, hs, rfl, hcs⟩ := mem_boundaries.1 hc
  rcases List.mem_append.1 hs with hs | hs
  · exact mem_boundaries.2 ⟨s, hs, rfl, hcs⟩
  · have hmem : s ∈ core m axes := by
      rw [h, core, trim_append]
      refine mem_mergeAdjacent_append (by rwa [← core, hx]) fun a ha => ?_
      exact hr a (trim_subset rest ha)
    have := (within_boundaries (m := m) axes).core s hmem
    rcases hcs with rfl | rfl
    · exact this.1
    · exact this.2

/-- A suffix is removed where the atoms of a list are those of a part and those of the suffix. -/
theorem removeSuffix_of_atoms (hv : AllValid m (axes ++ suffix)) (hr : AllValid m rest)
    (hw : Within m (boundaries m (axes ++ suffix)) (core m rest))
    (hcut : atoms m (axes ++ suffix) axes
      = atoms m (axes ++ suffix) (core m rest) ++ atoms m (axes ++ suffix) suffix) :
    removeSuffix m axes suffix = .ok (some (core m rest)) := by
  have hflat : [axes, suffix].flatten = axes ++ suffix := by simp
  have hatomize : atomize m [axes, suffix] = .ok
      ⟨[atoms m (axes ++ suffix) axes, atoms m (axes ++ suffix) suffix],
        opaqueAxes m (axes ++ suffix)⟩ := by
    rw [atomize_eq (hflat ▸ hv), hflat]
    rfl
  have hmerge := mergeAdjacent_atoms hv hr.core hw
  rw [core_core] at hmerge
  simp only [removeSuffix, hatomize, bind, Except.bind, pure, Except.pure]
  rw [hcut, if_pos (List.isSuffixOf_iff_suffix.2 (List.suffix_append ..)),
    List.length_append, Nat.add_sub_cancel, List.take_left, hmerge]

/-- Removing a suffix undoes appending it, up to cores. -/
theorem removeSuffix_eq (hv : AllValid m (axes ++ suffix)) (hr : AllValid m rest)
    (hs : Seamless m axes) (hx : core m suffix = suffix)
    (hclear : ∀ a ∈ rest, ∀ b ∈ suffix, a.name = b.name →
      a.name ∉ opaqueAxes m (axes ++ suffix))
    (h : core m axes = core m (rest ++ suffix)) :
    removeSuffix m axes suffix = .ok (some (core m rest)) := by
  let all := axes ++ suffix
  have hva := allValid_append.1 hv
  have hall := within_append.1 (within_boundaries (m := m) all)
  have hsplit : core m axes = mergeAdjacent m (core m rest ++ suffix) := by
    rw [h, core, trim_append]
    refine mergeAdjacent_append_congr (mergeAdjacent_core rest).symm ?_
    conv_rhs => rw [← hx, mergeAdjacent_core]
    rfl
  have hrest : Within m (boundaries m all) (core m rest) :=
    within_of_mergeAdjacent_append (separated_core rest) (hsplit ▸ hall.1.core) hall.2
  have hseam : (trim m axes).IsChain fun a b =>
      a.canMerge b m = true → a.name ∉ opaqueAxes m all := by
    refine hs.imp fun a b hab hm hop => ?_
    by_cases hname : ∃ x ∈ rest, x.name = a.name
    · -- the axis is in what stays, so it is not in the suffix
      obtain ⟨x, hx, hxa⟩ := hname
      refine not_mem_opaqueAxes_of_subset (hab hm) (fun c hc => ?_) hop
      obtain ⟨y, hy, hya, hc⟩ := mem_boundaries.1 hc
      rcases List.mem_append.1 hy with hy | hy
      · exact mem_boundaries.2 ⟨y, hy, hya, hc⟩
      · exact absurd (hxa ▸ hop) (hclear x hx y hy (hxa.trans hya.symm))
    · push Not at hname
      exact not_mem_opaqueAxes_of_subset (hab hm) (boundaries_append_subset hx h hname) hop
  have hjoin : (core m rest ++ suffix).IsChain fun a b =>
      a.canMerge b m = true → a.name ∉ opaqueAxes m all := by
    have hvacuous : ∀ l : List AxisRef, Separated m l → l.IsChain fun a b =>
        a.canMerge b m = true → a.name ∉ opaqueAxes m all :=
      fun l hl => hl.imp fun a b hab hm => absurd hm hab
    refine (hvacuous _ (separated_core rest)).append
      (hvacuous _ (hx ▸ separated_core suffix)) fun a ha b hb hm => ?_
    obtain ⟨x, hx, hxa⟩ := exists_name_of_mem_core (List.mem_of_mem_getLast? ha)
    have := hclear x hx b (List.mem_of_mem_head? hb) (hxa.trans (name_eq_of_canMerge hm))
    rwa [hxa] at this
  have hcut : atoms m all axes = atoms m all (core m rest) ++ atoms m all suffix := by
    rw [← atoms_core hv hva.1 hall.1 hseam, hsplit,
      atoms_mergeAdjacent (allValid_append.2 ⟨hr.core, hva.2⟩) (within_append.2 ⟨hrest, hall.2⟩)
        hjoin]
    exact List.flatMap_append
  exact removeSuffix_of_atoms hv hr hrest hcut

/-- Removing nothing keeps the core, also of opaque axes. -/
theorem removeSuffix_nil (hv : AllValid m axes) :
    removeSuffix m axes [] = .ok (some (core m axes)) := by
  have hflat : [axes, []].flatten = axes := by simp
  have hatomize : atomize m [axes, []] = _ := atomize_eq (by rwa [hflat])
  rw [hflat] at hatomize
  simp only [removeSuffix, hatomize, bind, Except.bind, pure, Except.pure, List.map_cons,
    List.map_nil]
  have hnil : atoms m axes [] = [] := rfl
  rw [hnil, if_pos (by simp), List.length_nil, Nat.sub_zero, List.take_length,
    mergeAdjacent_atoms hv hv (within_boundaries axes)]

end removeSuffix

end AxisList
end MeshSharding
