import MeshSharding.Proofs.AxisList.Clear

/-! The common subdivision is the coarsest one. No window of the lists begins or ends inside of an
atom, while the parts of any other subdivision do not reach across a place where one does. -/
namespace MeshSharding
namespace AxisList

variable {m : Mesh} {all l : List AxisRef} {lists : List (List AxisRef)} {a b x y : AxisRef}
  {name : String} {c d : Nat}

section spec

/-- A reference to the axis begins or ends there. -/
def IsBoundary (m : Mesh) (all : List AxisRef) (name : String) (c : Nat) : Prop :=
  ∃ a ∈ all, a.name = name ∧ (c = a.preSize ∨ c = a.preSize * a.size m)

/-- The references to an axis are cut into parts that make them up again. Two parts are equal or do
not overlap, whatever references they are parts of. -/
structure Subdivides (m : Mesh) (all : List AxisRef) (name : String)
    (parts : AxisRef → List AxisRef) : Prop where
  valid : ∀ a ∈ all, a.name = name → AllValid m (parts a)
  merge : ∀ a ∈ all, a.name = name → mergeAdjacent m (parts a) = [a]
  eq_or_apart : ∀ a ∈ all, a.name = name → ∀ b ∈ all, b.name = name →
    ∀ p ∈ parts a, ∀ q ∈ parts b, p = q ∨ p.overlaps q m = false

/-- The part lies in one of the other parts. -/
def LiesIn (m : Mesh) (p : AxisRef) (parts : List AxisRef) : Prop :=
  ∃ x ∈ parts, x.name = p.name ∧ x.preSize ≤ p.preSize ∧ p.nextPreSize m ≤ x.nextPreSize m

/-- The coarsest subdivision that several lists have in common. The boundaries on an opaque axis
do not divide one another; on all other axes the lists are cut where any of them has a boundary. -/
structure IsCoarsest (m : Mesh) (lists : List (List AxisRef)) (cut : Subdivision) : Prop where
  mem_opaqueAxes_iff : ∀ name, name ∈ cut.opaqueAxes ↔ ∃ c d, IsBoundary m lists.flatten name c ∧
    IsBoundary m lists.flatten name d ∧ ¬ c ∣ d ∧ ¬ d ∣ c
  eq_or_apart : ∀ l ∈ cut.lists, ∀ r ∈ cut.lists, ∀ a ∈ l, ∀ b ∈ r,
    a.name ∉ cut.opaqueAxes → a = b ∨ a.overlaps b m = false
  valid : ∀ l ∈ cut.lists, AllValid m l
  bounds : ∀ l ∈ cut.lists, ∀ a ∈ l, IsBoundary m lists.flatten a.name a.preSize ∧
    IsBoundary m lists.flatten a.name (a.nextPreSize m)
  free : ∀ l ∈ cut.lists, ∀ a ∈ l, a.name ∉ cut.opaqueAxes →
    ∀ c, IsBoundary m lists.flatten a.name c → ¬ (a.preSize < c ∧ c < a.nextPreSize m)
  merged : cut.lists.map (mergeAdjacent m) = lists.map (mergeAdjacent m)
  parts : ∃ parts : AxisRef → List AxisRef, cut.lists = lists.map (fun l => l.flatMap parts) ∧
    (∀ a, a.name ∈ cut.opaqueAxes → parts a = [a]) ∧
    ∀ name, name ∉ cut.opaqueAxes → Subdivides m lists.flatten name parts ∧
      ∀ finer, Subdivides m lists.flatten name finer →
        ∀ a ∈ lists.flatten, a.name = name → ∀ p ∈ finer a, LiesIn m p (parts a)

end spec

section boundaries

theorem isBoundary_iff : IsBoundary m all name c ↔ c ∈ boundaries m all name :=
  mem_boundaries.symm

/-- An axis is opaque exactly if neither of two of its boundaries divides the other. -/
theorem mem_opaqueAxes_iff_exists (h : AllValid m all) : name ∈ opaqueAxes m all ↔
    ∃ c d, IsBoundary m all name c ∧ IsBoundary m all name d ∧ ¬ c ∣ d ∧ ¬ d ∣ c := by
  simp only [isBoundary_iff]
  constructor
  · intro hmem
    by_contra hnone
    push Not at hnone
    refine not_mem_opaqueAxes_iff.2 ⟨sorted_boundaries all name, fun c hc d hd hle => ?_⟩ hmem
    by_contra hdvd
    have hback := hnone c d hc hd hdvd
    rw [Nat.le_antisymm hle (Nat.le_of_dvd (boundaries_pos h hc) hback)] at hdvd
    exact hdvd (Nat.dvd_refl d)
  · rintro ⟨c, d, hc, hd, hcd, hdc⟩
    by_contra hmem
    have hladder := not_mem_opaqueAxes_iff.1 hmem
    rcases Nat.le_total c d with hle | hle
    · exact hcd (hladder.dvd c hc d hd hle)
    · exact hdc (hladder.dvd d hd c hc hle)

end boundaries

section free

/-- Two neighbours of an increasing list have no other place of it between them. -/
theorem le_or_le_of_mem_steps {bounds : List Nat} (h : bounds.Pairwise (· < ·)) {s : Nat × Nat}
    (hs : s ∈ steps bounds) (hc : c ∈ bounds) : c ≤ s.1 ∨ s.2 ≤ c := by
  induction bounds with
  | nil => cases hc
  | cons b rest ih =>
    cases rest with
    | nil => cases hs
    | cons b' rest =>
      rw [List.pairwise_cons] at h
      have hsteps : steps (b :: b' :: rest) = (b, b') :: steps (b' :: rest) := rfl
      rw [hsteps, List.mem_cons] at hs
      rw [List.mem_cons] at hc
      rcases hs with rfl | hs <;> rcases hc with rfl | hc
      · exact .inl (Nat.le_refl c)
      · rcases List.mem_cons.1 hc with rfl | hc
        · exact .inr (Nat.le_refl c)
        · exact .inr (Nat.le_of_lt ((List.pairwise_cons.1 h.2).1 c hc))
      · exact .inl (Nat.le_of_lt (h.1 s.1 (mem_of_mem_steps hs).1))
      · exact ih h.2 hs hc

theorem le_or_le_of_mem_cutAt {bounds : List Nat} (h : bounds.Pairwise (· < ·))
    (hx : x ∈ cutAt m bounds a) (hc : c ∈ bounds) : c ≤ x.preSize ∨ x.nextPreSize m ≤ c := by
  rw [cutAt_eq] at hx
  obtain ⟨s, hs, rfl⟩ := List.mem_map.1 hx
  have hspan : ∀ {c}, c ∈ span bounds a.preSize (a.nextPreSize m) ↔
      c ∈ bounds ∧ a.preSize ≤ c ∧ c ≤ a.nextPreSize m := by simp [span]
  obtain ⟨hlow, hhigh⟩ := mem_of_mem_steps hs
  have hend : s.1 * (s.2 / s.1) ≤ s.2 := Nat.mul_div_le s.2 s.1
  rw [AxisRef.ofWindow_preSize, AxisRef.ofWindow_nextPreSize]
  by_cases hin : c ∈ span bounds a.preSize (a.nextPreSize m)
  · rcases le_or_le_of_mem_steps (h.sublist List.filter_sublist) hs hin with hle | hle
    · exact .inl hle
    · exact .inr (hend.trans hle)
  · -- a boundary outside of the window is outside of its parts
    have hfirst := (hspan.1 hlow).2
    have hlast := (hspan.1 hhigh).2
    rw [hspan] at hin
    grind

/-- No boundary lies inside of an atom. -/
theorem le_or_le_of_mem_atoms (hx : x ∈ atoms m all l) (hn : x.name ∉ opaqueAxes m all)
    (hc : c ∈ boundaries m all x.name) : c ≤ x.preSize ∨ x.nextPreSize m ≤ c := by
  obtain ⟨a, ha, hxa⟩ := List.mem_flatMap.1 hx
  unfold atomsOf at hxa
  split at hxa
  · rename_i hop
    obtain rfl := List.mem_singleton.1 hxa
    exact absurd hop hn
  · have hname : x.name = a.name := by
      obtain ⟨s, -, rfl⟩ := List.mem_map.1 hxa
      simp
    exact le_or_le_of_mem_cutAt (sorted_boundaries all a.name) hxa (hname ▸ hc)

/-- Windows of an axis that overlap begin and end together if neither has an end of the other one
inside of it. -/
theorem eq_or_apart_of_free (hx : x.Valid m) (hy : y.Valid m)
    (hxy : ∀ c, c = y.preSize ∨ c = y.nextPreSize m → c ≤ x.preSize ∨ x.nextPreSize m ≤ c)
    (hyx : ∀ c, c = x.preSize ∨ c = x.nextPreSize m → c ≤ y.preSize ∨ y.nextPreSize m ≤ c) :
    x = y ∨ x.overlaps y m = false := by
  by_contra h
  rw [not_or, Bool.not_eq_false, AxisRef.overlaps, decide_eq_true_eq] at h
  obtain ⟨hne, hname, hlt, hlt'⟩ := h
  have hpre : x.preSize = y.preSize := by
    have := hxy _ (.inl rfl)
    have := hyx _ (.inl rfl)
    omega
  have hnext : x.nextPreSize m = y.nextPreSize m := by
    have := hxy _ (.inr rfl)
    have := hyx _ (.inr rfl)
    omega
  exact hne (hx.eq_of_bounds hy hname hpre hnext)

/-- Two atoms are equal or do not overlap. -/
theorem eq_or_apart_of_mem_atoms (h : AllValid m all) {r : List AxisRef} (hl : l ⊆ all)
    (hr : r ⊆ all) (hx : x ∈ atoms m all l) (hy : y ∈ atoms m all r)
    (hn : x.name ∉ opaqueAxes m all) : x = y ∨ x.overlaps y m = false := by
  by_cases hname : x.name = y.name
  · obtain ⟨hxv, -, hxp, hxq, -⟩ := mem_atoms h hl hx
    obtain ⟨hyv, -, hyp, hyq, -⟩ := mem_atoms h hr hy
    refine eq_or_apart_of_free hxv hyv (fun c hc => ?_) fun c hc => ?_
    · refine le_or_le_of_mem_atoms hx hn (hname ▸ ?_)
      rcases hc with rfl | rfl <;> assumption
    · refine le_or_le_of_mem_atoms hy (hname ▸ hn) (hname ▸ ?_)
      rcases hc with rfl | rfl <;> assumption
  · exact .inr (by simp [AxisRef.overlaps, hname])

end free

section coarsest

variable {parts finer : AxisRef → List AxisRef} {p : AxisRef}

namespace Subdivides

theorem name_eq (h : Subdivides m all name parts) (ha : a ∈ all) (hname : a.name = name)
    (hp : p ∈ parts a) : p.name = a.name := by
  obtain ⟨b, hb, hpb⟩ := (exists_name_mergeAdjacent_iff (m := m) _ _).2 ⟨p, hp, rfl⟩
  rw [h.merge a ha hname, List.mem_singleton] at hb
  rw [← hpb, hb]

/-- The parts of a reference cover what it covers. -/
theorem exists_covers_iff (h : Subdivides m all name parts) (ha : a ∈ all) (hname : a.name = name) :
    (∃ p ∈ parts a, p.covers m name c = true) ↔ a.preSize ≤ c ∧ c < a.nextPreSize m := by
  have hplaces := places_mergeAdjacent (h.valid a ha hname).upright
  rw [h.merge a ha hname] at hplaces
  rw [← mem_places, ← hplaces, mem_places]
  simp [AxisRef.covers, hname]

/-- The parts of a reference lie in it. -/
theorem bounds_of_mem (h : Subdivides m all name parts) (ha : a ∈ all) (hname : a.name = name)
    (hp : p ∈ parts a) (hlt : p.preSize < p.nextPreSize m) :
    a.preSize ≤ p.preSize ∧ p.nextPreSize m ≤ a.nextPreSize m := by
  have hpname := (h.name_eq ha hname hp).trans hname
  have hcovers : ∀ c, p.preSize ≤ c → c < p.nextPreSize m →
      a.preSize ≤ c ∧ c < a.nextPreSize m := fun c hlow hhigh =>
    (h.exists_covers_iff ha hname).1 ⟨p, hp, by simp [AxisRef.covers, hpname, hlow, hhigh]⟩
  have hfirst := hcovers p.preSize (Nat.le_refl _) hlt
  have hlast := hcovers (p.nextPreSize m - 1) (by omega) (by omega)
  omega

/-- No part of a subdivision reaches across a boundary: behind it and in front of it the window
that begins or ends there has other parts. -/
theorem le_or_le_of_mem (h : Subdivides m all name parts)
    (hlt : ∀ a ∈ all, a.preSize < a.nextPreSize m) (ha : a ∈ all) (hname : a.name = name)
    (hp : p ∈ parts a) (hc : c ∈ boundaries m all name) :
    c ≤ p.preSize ∨ p.nextPreSize m ≤ c := by
  by_contra hin
  rw [not_or, Nat.not_le, Nat.not_le] at hin
  obtain ⟨b, hb, hbname, hbc⟩ := mem_boundaries.1 hc
  -- a part that shares a place with `b` lies in `b`
  have hpart : ∀ place, b.preSize ≤ place → place < b.nextPreSize m → p.preSize ≤ place →
      place < p.nextPreSize m → b.preSize ≤ p.preSize ∧ p.nextPreSize m ≤ b.nextPreSize m := by
    intro place hlow hhigh hplow hphigh
    obtain ⟨q, hq, hcovers⟩ := (h.exists_covers_iff hb hbname).2 ⟨hlow, hhigh⟩
    simp only [AxisRef.covers, decide_eq_true_eq] at hcovers
    rcases h.eq_or_apart a ha hname b hb hbname p hp q hq with rfl | hapart
    · exact h.bounds_of_mem hb hbname hq (by omega)
    · have hpq : p.name = q.name := ((h.name_eq ha hname hp).trans hname).trans hcovers.1.symm
      rw [AxisRef.overlaps, decide_eq_false_iff_not] at hapart
      exact absurd ⟨hpq, by omega, by omega⟩ hapart
  have hpos := hlt b hb
  rcases hbc with rfl | rfl
  · have hleft := (hpart b.preSize (by omega) hpos (by omega) hin.2).1
    omega
  · have hright := (hpart (b.nextPreSize m - 1) (by omega) (by omega) (by omega) (by omega)).2
    omega

/-- A subdivision that is cut at boundaries only has the parts of any other one in its own. -/
theorem liesIn (h : Subdivides m all name parts) (hfiner : Subdivides m all name finer)
    (hlt : ∀ a ∈ all, a.preSize < a.nextPreSize m)
    (hbounds : ∀ a ∈ all, ∀ x ∈ parts a, x.nextPreSize m ∈ boundaries m all x.name)
    (ha : a ∈ all) (hname : a.name = name) (hp : p ∈ finer a)
    (hpos : p.preSize < p.nextPreSize m) : LiesIn m p (parts a) := by
  have hpa := hfiner.bounds_of_mem ha hname hp hpos
  obtain ⟨x, hx, hcovers⟩ := (h.exists_covers_iff ha hname).2
    (show a.preSize ≤ p.preSize ∧ p.preSize < a.nextPreSize m by omega)
  simp only [AxisRef.covers, decide_eq_true_eq] at hcovers
  have hend := hfiner.le_or_le_of_mem hlt ha hname hp (hcovers.1 ▸ hbounds a ha x hx)
  exact ⟨x, hx, (h.name_eq ha hname hx).trans (hfiner.name_eq ha hname hp).symm, hcovers.2.1,
    by omega⟩

end Subdivides

/-- The atoms of a list merge to what the list merges to. -/
theorem mergeAdjacent_atoms_of_one_lt (h : AllValid m all) (hsize : ∀ a ∈ all, 1 < a.size m)
    (hl : l ⊆ all) : mergeAdjacent m (atoms m all l) = mergeAdjacent m l := by
  rw [mergeAdjacent_atoms h (h.subset hl) ((within_boundaries all).subset hl), core,
    trim_eq_self fun a ha => hsize a (hl ha)]

theorem atomsOf_eq_atoms (a : AxisRef) : atomsOf m all (opaqueAxes m all) a = atoms m all [a] :=
  (List.flatMap_singleton _ _).symm

theorem subdivides_atomsOf (h : AllValid m all) (hsize : ∀ a ∈ all, 1 < a.size m)
    (hn : name ∉ opaqueAxes m all) :
    Subdivides m all name (atomsOf m all (opaqueAxes m all)) := by
  have hsub : ∀ a ∈ all, [a] ⊆ all := fun a ha => List.forall_mem_singleton.2 ha
  refine ⟨fun a ha _ => atomsOf_eq_atoms a ▸ allValid_atoms h (hsub a ha), fun a ha _ => ?_,
    fun a ha haname b hb hbname p hp q hq => ?_⟩
  · rw [atomsOf_eq_atoms, mergeAdjacent_atoms_of_one_lt h hsize (hsub a ha)]
    rfl
  · rw [atomsOf_eq_atoms] at hp hq
    by_cases hpname : p.name ∈ opaqueAxes m all
    · have hpa := (mem_atoms h (hsub a ha) hp).2.2.2.2 hpname
      rw [List.mem_singleton.1 hpa, haname] at hpname
      exact absurd hpname hn
    · exact eq_or_apart_of_mem_atoms h (hsub a ha) (hsub b hb) hp hq hpname

theorem liesIn_atomsOf (h : AllValid m all) (hsize : ∀ a ∈ all, 2 ≤ a.fullSize m)
    (hn : name ∉ opaqueAxes m all) (hfiner : Subdivides m all name finer) (ha : a ∈ all)
    (hname : a.name = name) (hp : p ∈ finer a) :
    LiesIn m p (atomsOf m all (opaqueAxes m all) a) := by
  have hone : ∀ a ∈ all, 1 < a.size m := fun a ha => (h a ha).one_lt_size_of_two_le (hsize a ha)
  have hpvalid := hfiner.valid a ha hname p hp
  have hpsize := hpvalid.one_lt_size_of_two_le
    (AxisRef.fullSize_congr m (hfiner.name_eq ha hname hp) ▸ hsize a ha)
  refine (subdivides_atomsOf h hone hn).liesIn hfiner
    (fun a ha => (h a ha).preSize_lt_nextPreSize (hone a ha)) (fun a ha x hx => ?_) ha hname hp
    (hpvalid.preSize_lt_nextPreSize hpsize)
  rw [atomsOf_eq_atoms] at hx
  exact (mem_atoms h (List.forall_mem_singleton.2 ha) hx).2.2.2.1

/-- The references of valid lists to axes of size above 1 are cut as coarsely as the boundaries
allow. -/
theorem isCoarsest_atomize (h : AllValid m lists.flatten)
    (hsize : ∀ a ∈ lists.flatten, 2 ≤ a.fullSize m) :
    ∃ cut, atomize m lists = .ok cut ∧ IsCoarsest m lists cut := by
  have hone : ∀ a ∈ lists.flatten, 1 < a.size m := fun a ha =>
    (h a ha).one_lt_size_of_two_le (hsize a ha)
  have hsub : ∀ l ∈ lists, l ⊆ lists.flatten := fun l hl a ha => List.mem_flatten.2 ⟨l, hl, ha⟩
  refine ⟨_, atomize_eq h, ?_⟩
  refine
    { mem_opaqueAxes_iff := fun name => mem_opaqueAxes_iff_exists h
      eq_or_apart := ?_
      valid := ?_
      bounds := ?_
      free := ?_
      merged := ?_
      parts := ⟨atomsOf m lists.flatten (opaqueAxes m lists.flatten), rfl, ?_, ?_⟩ }
  · rw [List.forall_mem_map]
    intro l hl
    rw [List.forall_mem_map]
    intro r hr a ha b hb hn
    exact eq_or_apart_of_mem_atoms h (hsub l hl) (hsub r hr) ha hb hn
  · rw [List.forall_mem_map]
    exact fun l hl => allValid_atoms h (hsub l hl)
  · rw [List.forall_mem_map]
    intro l hl a ha
    obtain ⟨-, -, hpre, hnext, -⟩ := mem_atoms h (hsub l hl) ha
    exact ⟨isBoundary_iff.2 hpre, isBoundary_iff.2 hnext⟩
  · rw [List.forall_mem_map]
    rintro l hl a ha hn c hc ⟨hlow, hhigh⟩
    have hfree := le_or_le_of_mem_atoms ha hn (isBoundary_iff.1 hc)
    omega
  · rw [List.map_map]
    exact List.map_congr_left fun l hl => mergeAdjacent_atoms_of_one_lt h hone (hsub l hl)
  · exact fun a ha => if_pos ha
  · exact fun name hn => ⟨subdivides_atomsOf h hone hn, fun finer hfiner a ha hname p hp =>
      liesIn_atomsOf h hsize hn hfiner ha hname hp⟩

/-- The axis of size 8 is cut in three; on the axis of size 6 a part of size 2 meets one of
size 3. -/
theorem isCoarsest_atomize_eight :
    let m := Mesh.grid 8 6 (Nat.zero_lt_succ 7) (Nat.zero_lt_succ 5)
    let lists : List (List AxisRef) := [[.full "x", .sub "y" 1 2], [.sub "x" 2 2, .sub "y" 1 3]]
    let cut : Subdivision := ⟨[[.sub "x" 1 2, .sub "x" 2 2, .sub "x" 4 2, .sub "y" 1 2],
      [.sub "x" 2 2, .sub "y" 1 3]], ["y"]⟩
    AllValid m lists.flatten ∧ (∀ a ∈ lists.flatten, 2 ≤ a.fullSize m) ∧
      atomize m lists = .ok cut ∧ IsCoarsest m lists cut := by
  intro m lists cut
  have hvalid : AllValid m lists.flatten := by
    unfold AllValid AxisRef.Valid
    decide
  have hsize : ∀ a ∈ lists.flatten, 2 ≤ a.fullSize m := by decide
  have hcut : atomize m lists = .ok cut := by decide +kernel
  obtain ⟨cut', hcut', hcoarsest⟩ := isCoarsest_atomize hvalid hsize
  obtain rfl : cut' = cut := Except.ok.inj (hcut'.symm.trans hcut)
  exact ⟨hvalid, hsize, hcut, hcoarsest⟩

end coarsest

end AxisList
end MeshSharding
