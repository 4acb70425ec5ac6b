import MeshSharding.Proofs.AxisList.Removal
import MeshSharding.Proofs.AxisList.Seamless
import MeshSharding.Proofs.Sharding.Validity

/-! Lists without opaque axes. All their references are cut, so what was appended can be taken
off again however it was merged with what stood in front of it. -/
namespace MeshSharding
namespace AxisList

variable {m : Mesh} {all axes suffix rest l r x : List AxisRef} {a b : AxisRef}

/-- The bounds of every axis divide one another. -/
def Clear (m : Mesh) (l : List AxisRef) : Prop := ∀ name, Ladder (boundaries m l name)

theorem clear_iff : Clear m l ↔ opaqueAxes m l = [] := by
  rw [List.eq_nil_iff_forall_not_mem]
  exact forall_congr' fun _ => not_mem_opaqueAxes_iff.symm

theorem Clear.of_within (h : Clear m all) (hw : Within m (boundaries m all) l) : Clear m l :=
  fun name => not_mem_opaqueAxes_iff.1 (not_mem_opaqueAxes_of_within hw (h name))

theorem Clear.subset (h : Clear m all) (hs : l ⊆ all) : Clear m l :=
  h.of_within ((within_boundaries all).subset hs)

/-- Merging brings in no bounds. -/
theorem Clear.mergeAdjacent_append (h : Clear m (l ++ r)) (hx : x ⊆ l ++ r) :
    Clear m (mergeAdjacent m (l ++ r) ++ x) :=
  have hall := within_boundaries (m := m) (l ++ r)
  h.of_within (within_append.2 ⟨hall.mergeAdjacent, hall.subset hx⟩)

section removal

/-- Removing a suffix undoes appending it, up to cores. -/
theorem removeSuffix_of_clear (hclear : Clear m (axes ++ suffix))
    (hv : AllValid m (axes ++ suffix)) (hr : AllValid m rest)
    (h : core m axes = core m (rest ++ suffix)) :
    removeSuffix m axes suffix = .ok (some (core m rest)) := by
  let all := axes ++ suffix
  obtain ⟨haxes, hsuffix⟩ := allValid_append.1 hv
  have hall := within_append.1 (within_boundaries (m := m) all)
  have hchain : ∀ l : List AxisRef,
      l.IsChain fun a b => a.canMerge b m = true → a.name ∉ opaqueAxes m all := fun l =>
    List.Pairwise.isChain (List.pairwise_of_forall fun _ _ _ =>
      not_mem_opaqueAxes_iff.2 (hclear _))
  have hcore : core m axes = core m (core m rest ++ suffix) := by
    rw [h]
    exact core_append_congr (core_core rest).symm rfl
  have hrest : Within m (boundaries m all) (core m rest) := by
    refine within_of_mergeAdjacent_append (separated_core rest) (r := trim m suffix) ?_
      (hall.2.subset (trim_subset suffix))
    have hwithin := hall.1.core
    rwa [hcore, core, trim_append, trim_eq_self one_lt_size_of_mem_core] at hwithin
  have hcut : atoms m all axes = atoms m all (core m rest) ++ atoms m all suffix := by
    rw [← atoms_core hv haxes hall.1 (hchain _), hcore,
      atoms_core hv (allValid_append.2 ⟨hr.core, hsuffix⟩) (within_append.2 ⟨hrest, hall.2⟩)
        (hchain _)]
    exact List.flatMap_append
  exact removeSuffix_of_atoms hv hr hrest hcut

theorem removeSuffix_mergeAdjacent_append (hclear : Clear m (axes ++ suffix))
    (hv : AllValid m (axes ++ suffix)) :
    removeSuffix m (mergeAdjacent m (axes ++ suffix)) suffix = .ok (some (core m axes)) := by
  obtain ⟨haxes, hsuffix⟩ := allValid_append.1 hv
  exact removeSuffix_of_clear (hclear.mergeAdjacent_append (List.subset_append_right _ _))
    (allValid_append.2 ⟨hv.mergeAdjacent, hsuffix⟩) haxes (core_mergeAdjacent hv)

/-- The references of an opaque axis are not cut, so a suffix of a clear list has none of them
that is not in the list. -/
theorem clear_append_of_removeSuffix (hclear : Clear m axes)
    (h : removeSuffix m axes suffix = .ok (some rest)) : Clear m (axes ++ suffix) := by
  obtain ⟨-, front, hfront, -⟩ := exists_of_removeSuffix h
  intro name
  by_contra hladder
  have hcut : name ∈ opaqueAxes m (axes ++ suffix) := by
    by_contra hn
    exact hladder (not_mem_opaqueAxes_iff.1 hn)
  have hmem : ∀ a ∈ suffix, a.name = name → a ∈ axes := by
    intro a ha hname
    have hself : a ∈ atoms m (axes ++ suffix) suffix :=
      List.mem_flatMap.2 ⟨a, ha, by simp [atomsOf, hname, hcut]⟩
    have hatom : a ∈ atoms m (axes ++ suffix) axes := hfront ▸ List.mem_append_right front hself
    obtain ⟨b, hb, hab⟩ := List.mem_flatMap.1 hatom
    unfold atomsOf at hab
    split at hab
    · exact List.mem_singleton.1 hab ▸ hb
    · rename_i hn
      obtain ⟨s, -, rfl⟩ := List.mem_map.1 hab
      rw [AxisRef.ofWindow_name] at hname
      exact absurd (hname ▸ hcut) hn
  refine hladder (ladder_of_subset (sorted_boundaries _ _) (hclear name) fun c hc => ?_)
  obtain ⟨a, ha, hname, hca⟩ := mem_boundaries.1 hc
  rcases List.mem_append.1 ha with ha | ha
  · exact mem_boundaries.2 ⟨a, ha, hname, hca⟩
  · exact mem_boundaries.2 ⟨a, hmem a ha hname, hname, hca⟩

end removal

section apart

theorem mem_places {name : String} {c : Nat} :
    (name, c) ∈ places m l ↔ ∃ a ∈ l, a.covers m name c = true := by
  rw [← List.count_pos_iff, ← coverage_eq_count, coverage, List.countP_pos_iff]

/-- A window that runs through places of a list begins and ends within windows of the list. -/
theorem exists_around (h1 : a.preSize < a.nextPreSize m)
    (h : ∀ p ∈ a.places m, p ∈ places m l) {c : Nat} (hc : c = a.preSize ∨ c = a.nextPreSize m) :
    ∃ b ∈ l, b.name = a.name ∧ b.preSize ≤ c ∧ c ≤ b.nextPreSize m := by
  have hplace : ∀ p, a.preSize ≤ p → p < a.nextPreSize m →
      ∃ b ∈ l, b.name = a.name ∧ b.preSize ≤ p ∧ p < b.nextPreSize m := by
    intro p hp hq
    have hmem : (a.name, p) ∈ places m [a] :=
      mem_places.2 ⟨a, by simp, by simp [AxisRef.covers, hp, hq]⟩
    obtain ⟨b, hb, hcovers⟩ := mem_places.1 (h _ (by simpa [places] using hmem))
    simp only [AxisRef.covers, decide_eq_true_eq] at hcovers
    exact ⟨b, hb, hcovers⟩
  rcases hc with rfl | rfl
  · obtain ⟨b, hb, hname, hp, hq⟩ := hplace a.preSize (Nat.le_refl _) h1
    exact ⟨b, hb, hname, hp, Nat.le_of_lt hq⟩
  · obtain ⟨b, hb, hname, hp, hq⟩ := hplace (a.nextPreSize m - 1) (by omega) (by omega)
    exact ⟨b, hb, hname, by omega, by omega⟩

/-- Windows that are apart do not begin or end inside of one another. -/
theorem le_or_le_of_apart (h : Apart m (l ++ r)) (ha : a ∈ l) (hb : b ∈ r)
    (hname : a.name = b.name) (h1 : b.preSize < b.nextPreSize m) {c : Nat}
    (hc : c = b.preSize ∨ c = b.nextPreSize m) : c ≤ a.preSize ∨ a.nextPreSize m ≤ c := by
  have hfree : ∀ p, ¬ ((a.preSize ≤ p ∧ p < a.nextPreSize m) ∧
      b.preSize ≤ p ∧ p < b.nextPreSize m) := by
    rintro p ⟨hap, hbp⟩
    have hleft : 0 < coverage m b.name p l :=
      List.countP_pos_iff.2 ⟨a, ha, by simp [AxisRef.covers, hname, hap]⟩
    have hright : 0 < coverage m b.name p r :=
      List.countP_pos_iff.2 ⟨b, hb, by simp [AxisRef.covers, hbp]⟩
    have hle := h b.name p
    rw [coverage_append] at hle
    omega
  rcases hc with rfl | rfl
  · have := hfree b.preSize
    omega
  · have := hfree (b.nextPreSize m - 1)
    omega

/-- A list `r` that is apart from `l` stays clear with references that run through places of `l`:
between a bound of theirs and one of `r` there is one of `l`. -/
theorem Clear.append_of_apart (hr : Clear m (l ++ r)) (hx : Clear m (l ++ x))
    (hapart : Apart m (l ++ r)) (hplaces : ∀ p ∈ places m x, p ∈ places m l)
    (hr1 : ∀ b ∈ r, b.preSize < b.nextPreSize m)
    (hx1 : ∀ a ∈ x, a.preSize < a.nextPreSize m) : Clear m (r ++ x) := by
  intro name
  have hmem : ∀ {l₁ l₂ : List AxisRef} {c : Nat}, c ∈ boundaries m (l₁ ++ l₂) name ↔
      c ∈ boundaries m l₁ name ∨ c ∈ boundaries m l₂ name := by
    intro l₁ l₂ c
    simp only [mem_boundaries, List.mem_append, or_and_right, exists_or]
  -- what a bound of `r` and a bound of `x` have between them
  have hcross : ∀ u ∈ boundaries m r name, ∀ v ∈ boundaries m x name,
      (u ≤ v ∧ u ∣ v) ∨ (v ≤ u ∧ v ∣ u) := by
    intro u hu v hv
    obtain ⟨b, hb, hbname, hub⟩ := mem_boundaries.1 hu
    obtain ⟨a, ha, haname, hva⟩ := mem_boundaries.1 hv
    obtain ⟨d, hd, hdname, hlow, hhigh⟩ := exists_around (hx1 a ha)
      (fun p hp => hplaces p (List.mem_flatMap.2 ⟨a, ha, hp⟩)) hva
    have hdn : d.name = name := hdname.trans haname
    have hpre : d.preSize ∈ boundaries m l name := mem_boundaries.2 ⟨d, hd, hdn, .inl rfl⟩
    have hnext : d.nextPreSize m ∈ boundaries m l name := mem_boundaries.2 ⟨d, hd, hdn, .inr rfl⟩
    have hdu := (hr name).dvd
    have hdv := (hx name).dvd
    rcases le_or_le_of_apart hapart hd hb (hdn.trans hbname.symm) (hr1 b hb) hub with hle | hle
    · exact .inl ⟨hle.trans hlow, (hdu u (hmem.2 (.inr hu)) _ (hmem.2 (.inl hpre)) hle).trans
        (hdv _ (hmem.2 (.inl hpre)) v (hmem.2 (.inr hv)) hlow)⟩
    · exact .inr ⟨hhigh.trans hle, (hdv v (hmem.2 (.inr hv)) _ (hmem.2 (.inl hnext)) hhigh).trans
        (hdu _ (hmem.2 (.inl hnext)) u (hmem.2 (.inr hu)) hle)⟩
  refine ⟨sorted_boundaries _ _, fun u hu v hv huv => ?_⟩
  rcases hmem.1 hu with hu | hu <;> rcases hmem.1 hv with hv | hv
  · exact (hr name).dvd u (hmem.2 (.inr hu)) v (hmem.2 (.inr hv)) huv
  · rcases hcross u hu v hv with ⟨-, hdvd⟩ | ⟨hle, -⟩
    · exact hdvd
    · rw [Nat.le_antisymm huv hle]
  · rcases hcross v hv u hu with ⟨hle, -⟩ | ⟨-, hdvd⟩
    · rw [Nat.le_antisymm huv hle]
    · exact hdvd
  · exact (hx name).dvd u (hmem.2 (.inr hu)) v (hmem.2 (.inr hv)) huv

end apart

end AxisList
end MeshSharding
