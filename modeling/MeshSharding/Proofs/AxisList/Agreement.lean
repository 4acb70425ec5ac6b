import MeshSharding.Proofs.AxisList.Clear
import MeshSharding.Proofs.AxisList.Prefix

/-! What two lists agree on. In clear lists the common part ends evenly within the references of
both, so the atoms of each list begin with those of the common part. -/
namespace MeshSharding

namespace AxisRef

variable {m : Mesh} {a b x : AxisRef}

theorem greatestCommonPrefix_comm (a b : AxisRef) (m : Mesh) :
    a.greatestCommonPrefix b m = b.greatestCommonPrefix a m := by
  unfold greatestCommonPrefix
  by_cases h : a.name = b.name ∧ a.preSize = b.preSize
  · rw [if_pos h, if_pos ⟨h.1.symm, h.2.symm⟩, h.1, h.2, Nat.min_comm, fullSize_congr m h.1]
  · rw [if_neg h, if_neg fun h' => h ⟨h'.1.symm, h'.2.symm⟩]

theorem isPrefixOf_self (a : AxisRef) (m : Mesh) : a.isPrefixOf a m = true :=
  isPrefixOf_iff.2 ⟨rfl, rfl, Nat.le_refl _⟩

/-- The major parts of two references are those of their greatest common one. -/
theorem exists_greatestCommonPrefix_iff :
    (∃ c, a.greatestCommonPrefix b m = some c ∧ x.isPrefixOf c m = true) ↔
      x.isPrefixOf a m = true ∧ x.isPrefixOf b m = true := by
  simp only [isPrefixOf_iff]
  by_cases hstart : a.name = b.name ∧ a.preSize = b.preSize
  · rw [greatestCommonPrefix, if_pos hstart, ← hstart.1, ← hstart.2]
    simp only [Option.some.injEq, exists_eq_left', ofWindow_name, ofWindow_preSize,
      ofWindow_size, ← Nat.mul_min_mul_left, Nat.le_min]
    tauto
  · rw [greatestCommonPrefix, if_neg hstart]
    simp only [reduceCtorEq, false_and, exists_false, false_iff]
    rintro ⟨⟨hname, hpre, -⟩, hname', hpre', -⟩
    exact hstart ⟨hname.symm.trans hname', hpre.symm.trans hpre'⟩

end AxisRef

namespace AxisList

variable {m : Mesh} {all axes part rest l r x : List AxisRef} {a b p : AxisRef}

section common

theorem meet_comm (m : Mesh) (l r : List AxisRef) : meet m l r = meet m r l := by
  induction l generalizing r with
  | nil => cases r <;> rfl
  | cons a l ih =>
    cases r with
    | nil => rfl
    | cons b r =>
      rw [meet, meet]
      by_cases h : a = b
      · rw [if_pos h, if_pos h.symm, ih, h]
      · rw [if_neg h, if_neg (Ne.symm h), AxisRef.greatestCommonPrefix_comm]

theorem commonPrefix_comm (m : Mesh) (l r : List AxisRef) :
    commonPrefix m l r = commonPrefix m r l := meet_comm ..

/-- Each reference of the common part is that of one of the lists at its place. -/
theorem getElem?_meet (hl : AllValid m l) (hr : AllValid m r) {i : Nat}
    (h : (meet m l r)[i]? = some a) : l[i]? = some a ∨ r[i]? = some a := by
  induction l generalizing r i with
  | nil => simp [meet] at h
  | cons b l ih =>
    cases r with
    | nil => simp [meet] at h
    | cons c r =>
      rw [allValid_cons] at hl hr
      rw [meet] at h
      split at h
      · cases i with
        | zero => exact .inl h
        | succ i => exact ih hl.2 hr.2 h
      · cases hcommon : b.greatestCommonPrefix c m with
        | none => simp [hcommon] at h
        | some x =>
          rw [hcommon, Option.toList_some] at h
          cases i with
          | zero =>
            cases h
            exact (AxisRef.greatestCommonPrefix_eq hl.1 hr.1 hcommon).1.imp
              (congrArg some ·.symm) (congrArg some ·.symm)
          | succ i => cases h

theorem meet_subset (hl : AllValid m l) (hr : AllValid m r) : meet m l r ⊆ l ++ r := by
  intro x hx
  obtain ⟨i, hi⟩ := List.getElem?_of_mem hx
  exact List.mem_append.2 ((getElem?_meet hl hr hi).imp List.mem_of_getElem? List.mem_of_getElem?)

/-- Of two windows of a clear list that begin together, the smaller one ends evenly within the
other. -/
theorem Clear.size_dvd (h : Clear m l) (ha : a ∈ l) (hb : b ∈ l) (hv : b.Valid m)
    (hname : a.name = b.name) (hpre : a.preSize = b.preSize) (hle : a.size m ≤ b.size m) :
    a.size m ∣ b.size m := by
  have hmem : ∀ x ∈ l, x.name = b.name → x.nextPreSize m ∈ boundaries m l b.name :=
    fun x hx hn => mem_boundaries.2 ⟨x, hx, hn, .inr rfl⟩
  have hdvd := (h b.name).dvd _ (hmem a ha hname) _ (hmem b hb rfl) (by
    rw [AxisRef.nextPreSize, AxisRef.nextPreSize, hpre]
    exact Nat.mul_le_mul_left _ hle)
  rw [AxisRef.nextPreSize, AxisRef.nextPreSize, hpre] at hdvd
  exact Nat.dvd_of_mul_dvd_mul_left hv.preSize_pos hdvd

end common

section evenly

/-- Behind what two lists share, of references that begin together one ends evenly within the
other. -/
def PartEvenly (m : Mesh) (l r : List AxisRef) : Prop :=
  ∀ (shared tail tail' : List AxisRef) (a b : AxisRef), l = shared ++ a :: tail →
    r = shared ++ b :: tail' → a.name = b.name → a.preSize = b.preSize →
    a.size m ∣ b.size m ∨ b.size m ∣ a.size m

theorem partEvenly_nil_left (m : Mesh) (r : List AxisRef) : PartEvenly m [] r := by
  intro shared tail tail' a b hl
  simp at hl

theorem partEvenly_nil_right (m : Mesh) (l : List AxisRef) : PartEvenly m l [] := by
  intro shared tail tail' a b _ hr
  simp at hr

theorem partEvenly_cons_self : PartEvenly m (a :: l) (a :: r) ↔ PartEvenly m l r := by
  refine ⟨fun h shared tail tail' x y hl hr => h (a :: shared) tail tail' x y
    (by rw [hl, List.cons_append]) (by rw [hr, List.cons_append]), fun h shared => ?_⟩
  cases shared with
  | nil =>
    rintro tail tail' x y ⟨⟩ ⟨⟩ - -
    exact .inl (Nat.dvd_refl _)
  | cons c shared =>
    rintro tail tail' x y hl hr
    exact h shared tail tail' x y (List.cons.inj hl).2 (List.cons.inj hr).2

theorem partEvenly_cons_of_ne (hne : a ≠ b) : PartEvenly m (a :: l) (b :: r) ↔
    (a.name = b.name → a.preSize = b.preSize → a.size m ∣ b.size m ∨ b.size m ∣ a.size m) := by
  refine ⟨fun h => h [] l r a b rfl rfl, fun h shared => ?_⟩
  cases shared with
  | nil =>
    rintro tail tail' x y ⟨⟩ ⟨⟩
    exact h
  | cons c shared =>
    rintro tail tail' x y hl hr
    exact absurd ((List.cons.inj hl).1.trans (List.cons.inj hr).1.symm) hne

theorem isSome_cutMerged_singleton_iff (ha : a.Valid m) (hp : p.Valid m)
    (h : p.isPrefixOf a m = true) :
    (cutMerged m (a :: axes) [p]).isSome ↔ p.size m ∣ a.size m := by
  rw [cutMerged]
  by_cases hpa : p = a
  · subst hpa
    simp [cutMerged]
  · rw [if_neg hpa, if_pos ⟨rfl, h⟩, Option.isSome_map,
      AxisRef.isSome_split_iff_of_isPrefixOf ha hp hpa h]

theorem min_dvd_iff {x y : Nat} (hx : 0 < x) (hy : 0 < y) :
    min x y ∣ x ∧ min x y ∣ y ↔ x ∣ y ∨ y ∣ x := by
  rcases Nat.le_total x y with hle | hle
  · rw [Nat.min_eq_left hle]
    refine ⟨fun h => .inl h.2, fun h => ⟨Nat.dvd_refl x, h.elim id fun h => ?_⟩⟩
    rw [Nat.le_antisymm hle (Nat.le_of_dvd hx h)]
  · rw [Nat.min_eq_right hle]
    refine ⟨fun h => .inr h.1, fun h => ⟨h.elim (fun h => ?_) id, Nat.dvd_refl y⟩⟩
    rw [Nat.le_antisymm (Nat.le_of_dvd hy h) hle]

/-- The common part can be taken off both lists exactly if they part evenly. -/
theorem isSome_cutMerged_meet_iff (hl : AllValid m l) (hr : AllValid m r) :
    (cutMerged m l (meet m l r)).isSome ∧ (cutMerged m r (meet m l r)).isSome ↔
      PartEvenly m l r := by
  induction l generalizing r with
  | nil => simp [meet, cutMerged, partEvenly_nil_left]
  | cons a l ih =>
    cases r with
    | nil => simp [meet, cutMerged, partEvenly_nil_right]
    | cons b r =>
      rw [allValid_cons] at hl hr
      rw [meet]
      by_cases hab : a = b
      · subst hab
        rw [if_pos rfl, cutMerged, if_pos rfl, cutMerged, if_pos rfl, partEvenly_cons_self]
        exact ih hl.2 hr.2
      · rw [if_neg hab, partEvenly_cons_of_ne hab]
        by_cases hstart : a.name = b.name ∧ a.preSize = b.preSize
        · obtain ⟨c, hc⟩ : ∃ c, a.greatestCommonPrefix b m = some c := ⟨_, if_pos hstart⟩
          obtain ⟨hca, hcb⟩ :=
            AxisRef.exists_greatestCommonPrefix_iff.1 ⟨c, hc, AxisRef.isPrefixOf_self c m⟩
          have hvalid : c.Valid m := by
            rcases (AxisRef.greatestCommonPrefix_eq hl.1 hr.1 hc).1 with rfl | rfl
            · exact hl.1
            · exact hr.1
          have hsize : c.size m = min (a.size m) (b.size m) := by
            rw [AxisRef.greatestCommonPrefix, if_pos hstart, Option.some.injEq] at hc
            rw [← hc, AxisRef.ofWindow_size]
          rw [hc, Option.toList_some, isSome_cutMerged_singleton_iff hl.1 hvalid hca,
            isSome_cutMerged_singleton_iff hr.1 hvalid hcb, hsize,
            min_dvd_iff hl.1.size_pos hr.1.size_pos]
          simp [hstart]
        · rw [AxisRef.greatestCommonPrefix, if_neg hstart]
          simp only [Option.toList_none, cutMerged, Option.isSome_some, and_self, true_iff]
          exact fun hname hpre => absurd ⟨hname, hpre⟩ hstart

/-- Clear lists part evenly. -/
theorem Clear.partEvenly (hclear : Clear m (l ++ r)) (hl : AllValid m l) (hr : AllValid m r) :
    PartEvenly m l r := by
  rintro shared tail tail' a b rfl rfl hname hpre
  have ha : a ∈ shared ++ a :: tail := by simp
  have hb : b ∈ shared ++ b :: tail' := by simp
  have hleft := List.mem_append_left (shared ++ b :: tail') ha
  have hright := List.mem_append_right (shared ++ a :: tail) hb
  rcases Nat.le_total (a.size m) (b.size m) with hle | hle
  · exact .inl (hclear.size_dvd hleft hright (hr b hb) hname hpre hle)
  · exact .inr (hclear.size_dvd hright hleft (hl a ha) hname.symm hpre.symm hle)

/-- The common part of clear lists can be cut off the first of them. -/
theorem isSome_cutMerged_meet (hclear : Clear m (l ++ r)) (hl : AllValid m l)
    (hr : AllValid m r) : (cutMerged m l (meet m l r)).isSome :=
  ((isSome_cutMerged_meet_iff hl hr).2 (hclear.partEvenly hl hr)).1

end evenly

section atoms

theorem atoms_append (l r : List AxisRef) :
    atoms m all (l ++ r) = atoms m all l ++ atoms m all r := List.flatMap_append

/-- Where merged windows are all cut, merging keeps the atoms. -/
theorem Clear.atoms_mergeAdjacent (hclear : Clear m all) (hl : AllValid m l)
    (hw : Within m (boundaries m all) l) : atoms m all (mergeAdjacent m l) = atoms m all l :=
  AxisList.atoms_mergeAdjacent hl hw <| List.Pairwise.isChain <|
    List.pairwise_of_forall fun _ _ _ => not_mem_opaqueAxes_iff.2 (hclear _)

/-- The atoms of a list are those of a part that is cut off and those of what it leaves. -/
theorem Clear.atoms_cutMerged (hclear : Clear m all) (haxes : AllValid m axes)
    (hpart : AllValid m part) (hw : Within m (boundaries m all) part)
    (h : cutMerged m axes part = some rest) :
    atoms m all axes = atoms m all part ++ atoms m all rest := by
  induction part generalizing axes with
  | nil =>
    rw [cutMerged] at h
    cases h
    rfl
  | cons p ps ih =>
    cases axes with
    | nil => cases h
    | cons a as =>
      rw [allValid_cons] at haxes hpart
      have hcons : ∀ a l, atoms m all (a :: l) = atoms m all [a] ++ atoms m all l :=
        fun a l => atoms_append [a] l
      rcases (cutMerged_cons_eq_some_iff haxes.1 hpart.1).1 h with
        ⟨rfl, htail⟩ | ⟨rfl, n, y, hsplit, rfl⟩
      · rw [hcons p as, hcons p ps, ih haxes.2 hpart.2 (hw.subset (List.subset_cons_self ..)) htail,
          List.append_assoc]
      · obtain ⟨hx, hy, hm, hmerge, -⟩ := AxisRef.split_eq_some haxes.1 hsplit
        have hself : ∀ b, b.name = p.name →
            atoms m all [b] = cutAt m (boundaries m all p.name) b := fun b hb => by
          have hn := not_mem_opaqueAxes_iff.2 (hclear p.name)
          simp [atoms, atomsOf, hb, hn]
        rw [hcons a, hcons y, ← hmerge, hself _ (AxisRef.merge_name ..), hself p rfl,
          hself y (name_eq_of_canMerge hm).symm,
          cutAt_merge (sorted_boundaries all p.name) hx hy hm (hw p (by simp)).2,
          List.append_assoc]

theorem within_commonPrefix (hall : AllValid m all) (hl : l ⊆ all) (hr : r ⊆ all) :
    Within m (boundaries m all) (commonPrefix m l r) := by
  have hwithin := within_boundaries (m := m) all
  have hboth := within_append.2
    ⟨(hwithin.subset hl).mergeAdjacent, (hwithin.subset hr).mergeAdjacent⟩
  exact hboth.subset (meet_subset (hall.subset hl).mergeAdjacent (hall.subset hr).mergeAdjacent)

/-- The atoms of a list begin with those of what it has in common with another one. -/
theorem atoms_commonPrefix_isPrefix (hclear : Clear m all) (hall : AllValid m all) (hl : l ⊆ all)
    (hr : r ⊆ all) : atoms m all (commonPrefix m l r) <+: atoms m all l := by
  have hvl := hall.subset hl
  have hvr := hall.subset hr
  have hwithin := within_boundaries (m := m) all
  have hmerged : Clear m (mergeAdjacent m l ++ mergeAdjacent m r) := hclear.of_within
    (within_append.2 ⟨(hwithin.subset hl).mergeAdjacent, (hwithin.subset hr).mergeAdjacent⟩)
  obtain ⟨rest, hrest⟩ := Option.isSome_iff_exists.1
    (isSome_cutMerged_meet hmerged hvl.mergeAdjacent hvr.mergeAdjacent)
  have hcut := hclear.atoms_cutMerged hvl.mergeAdjacent (commonPrefix_spec hvl hvr).1
    (within_commonPrefix hall hl hr) hrest
  rw [hclear.atoms_mergeAdjacent hvl (hwithin.subset hl)] at hcut
  exact ⟨_, hcut.symm⟩

/-- On a mesh without axes of size 1, atoms that begin with those of a part spell a list that has
this part. -/
theorem isPrefix_of_atoms_isPrefix (hm : m.NoUnitAxes) (hall : AllValid m all)
    (hpart : AllValid m part) (hw : Within m (boundaries m all) part) (haxes : AllValid m axes)
    (hx : AllValid m x) (hlead : atoms m all part <+: x) (h : core m axes = core m x) :
    isPrefix m part axes = true := by
  obtain ⟨rest, rfl⟩ := hlead
  have hrest := (allValid_append.1 hx).2
  have hmerge : mergeAdjacent m (atoms m all part) = mergeAdjacent m part := by
    rw [mergeAdjacent_atoms hall hpart hw, core_eq_mergeAdjacent hm hpart]
  have haxes : mergeAdjacent m axes = mergeAdjacent m (part ++ rest) :=
    calc mergeAdjacent m axes = core m axes := (core_eq_mergeAdjacent hm haxes).symm
      _ = core m (atoms m all part ++ rest) := h
      _ = mergeAdjacent m (atoms m all part ++ rest) := core_eq_mergeAdjacent hm hx
      _ = mergeAdjacent m (part ++ rest) := mergeAdjacent_append_congr hmerge rfl
  have hprefix := isPrefix_append hpart hrest
  rwa [isPrefix, commonPrefix, ← haxes] at hprefix

end atoms

end AxisList
end MeshSharding
