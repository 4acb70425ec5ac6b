import MeshSharding.Proofs.AxisList.Seamless
import MeshSharding.Proofs.Collective.Atoms

/-! The effect of collectives on the atoms of a sharding. Where the atoms allow it, a
collective is applied without an error, and it leads to a sharding that spells the
regrouped atoms. -/
namespace MeshSharding

open AxisList

variable {m : Mesh} {bounds : String → List Nat} {c : Collective} {s : TensorSharding}
  {A B : Nat → List AxisRef}

/-- The windows of the axes of a dimension end at bounds of `bounds`, and no opaque ones of
them could be merged. -/
def FitsAt (m : Mesh) (bounds : String → List Nat) (s : TensorSharding) (dim : Nat) : Prop :=
  ∀ d : DimSharding, s.dims[dim]? = some d → Within m bounds d.axes ∧ Seamless m d.axes

/-- The windows of all axes and of all atoms end at bounds of `bounds`, and nothing keeps
suffixes from being taken off the axes. -/
structure SpellsWithin (m : Mesh) (bounds : String → List Nat) (s : TensorSharding)
    (A : Nat → List AxisRef) : Prop extends Spells m s A where
  axesFit : ∀ dim, FitsAt m bounds s dim
  atomsWithin : ∀ dim, Within m bounds (A dim)
  atomsLarge : ∀ dim, ∀ a ∈ A dim, 1 < a.size m

namespace Collective

/-- Axes that end in `x` lose it, if the bounds divide one another on each axis that `x`
shares with what stays. -/
theorem takeOff_eq (dim : Nat) {axes rest x : List AxisRef}
    (hb : ∀ a ∈ rest, ∀ b ∈ x, a.name = b.name → Ladder (bounds a.name))
    (ha : AllValid m axes) (hr : AllValid m (rest ++ x)) (hx : ∀ a ∈ x, 1 < a.size m)
    (hs : Seamless m axes) (hwa : Within m bounds axes) (hwx : Within m bounds x)
    (h : core m axes = core m (rest ++ x)) :
    c.takeOff m dim axes (mergeAdjacent m x) = .ok (core m rest) := by
  have hv := allValid_append.1 hr
  have hcore : core m axes = core m (rest ++ mergeAdjacent m x) := by
    rw [h]
    exact core_append_congr rfl (core_mergeAdjacent hv.2).symm
  have hself : core m (mergeAdjacent m x) = mergeAdjacent m x := by
    rw [core_mergeAdjacent hv.2, core, trim_eq_self hx]
  have hwithin := within_append.2 ⟨hwa, hwx.mergeAdjacent⟩
  have hremove := removeSuffix_eq (allValid_append.2 ⟨ha, hv.2.mergeAdjacent⟩) hv.1 hs hself
    (fun a har b hb' hn => by
      obtain ⟨y, hy, hyb⟩ := exists_name_of_mem_mergeAdjacent hb'
      exact not_mem_opaqueAxes_of_within hwithin (hb a har y hy (hn.trans hyb.symm))) hcore
  simp [takeOff, hremove, bind, Except.bind, pure, Except.pure]

theorem takeOff_nil {dim : Nat} {axes : List AxisRef} (ha : AllValid m axes) :
    c.takeOff m dim axes [] = .ok (core m axes) := by
  simp [takeOff, removeSuffix_nil ha, bind, Except.bind, pure, Except.pure]

/-- The sharding behind a move, with the axes of its source and of its target. -/
def moved (s : TensorSharding) (move : Move) (source target : List AxisRef) : TensorSharding :=
  (s.modifyDim move.source fun d => { d with axes := source }).modifyDim move.target
    fun d => { d with axes := target }

theorem applyMove_eq {move : Move} {d e : DimSharding} {kept : List AxisRef}
    (hd : s.dims[move.source]? = some d) (he : s.dims[move.target]? = some e)
    (hne : move.source ≠ move.target) (hnil : move.axes ≠ [])
    (hkept : c.takeOff m move.source d.axes move.axes = .ok kept) :
    c.applyMove m s move = .ok (moved s move kept (mergeAdjacent m (e.axes ++ move.axes))) := by
  simp [applyMove, hd, he, hne, hnil, hkept, bind, Except.bind, pure, Except.pure, moved]

/-- What holds of the source and the target of a move and held of the other dimensions. -/
theorem forall_dims_moved {move : Move} {source target : List AxisRef}
    {P : Nat → List AxisRef → Prop} (hsource : P move.source source)
    (htarget : P move.target target)
    (hother : ∀ (k : Nat) (d : DimSharding), k ≠ move.source → k ≠ move.target →
      s.dims[k]? = some d → P k d.axes) :
    ∀ (k : Nat) (d : DimSharding), (moved s move source target).dims[k]? = some d →
      P k d.axes := by
  intro k d hd
  simp only [moved, TensorSharding.modifyDim, List.getElem?_modify] at hd
  cases hk : s.dims[k]? with
  | none => simp [hk] at hd
  | some x =>
    simp only [hk, Option.map_eq_map, Option.map_some, Option.some.injEq] at hd
    subst hd
    by_cases htk : move.target = k
    · rw [if_pos htk]
      exact htk ▸ htarget
    · by_cases hsk : move.source = k
      · rw [if_neg htk, if_pos hsk]
        exact hsk ▸ hsource
      · rw [if_neg htk, if_neg hsk]
        exact hother k x (Ne.symm hsk) (Ne.symm htk) hk

/-- A move takes the atoms at the end of one dimension to the end of another. -/
theorem spells_moved (hs : Spells m s A) {move : Move} (hAB : Shifts move A B)
    {e : DimSharding} (he : s.dims[move.target]? = some e) {kept : List AxisRef}
    (hkept : AllValid m kept) (hcore : core m kept = core m (B move.source)) :
    Spells m (moved s move kept (mergeAdjacent m (e.axes ++ mergeAdjacent m move.axes))) B := by
  have hvB := hAB.forall (P := AllValid m) (fun _ _ => allValid_append) hs.atoms
  have hvx := (allValid_append.1 (hAB.source ▸ hs.atoms move.source)).2
  have hv := allValid_append.2 ⟨hs.axes _ e he, hvx.mergeAdjacent⟩
  have htarget : core m (mergeAdjacent m (e.axes ++ mergeAdjacent m move.axes))
      = core m (B move.target) := by
    rw [core_mergeAdjacent hv, hAB.target]
    exact core_append_congr (hs.core _ e he) (core_mergeAdjacent hvx)
  refine ⟨forall_dims_moved (P := fun _ axes => AllValid m axes) hkept hv.mergeAdjacent
      fun k d _ _ hd => hs.axes k d hd, hvB,
    forall_dims_moved (P := fun k axes => core m axes = core m (B k)) hcore htarget
      fun k d hsk htk hd => ?_⟩
  rw [hAB.other k hsk htk]
  exact hs.core k d hd

/-- A move can be made where the bounds of the axes that it moves divide one another. -/
theorem applyMove_spells (h : SpellsWithin m bounds s A) {move : Move}
    (hb : ∀ a ∈ move.axes, Ladder (bounds a.name)) (hsource : move.source < s.rank)
    (htarget : move.target < s.rank) (hne : move.source ≠ move.target) (hnil : move.axes ≠ [])
    (hAB : Shifts move A B) :
    ∃ ds, c.applyMove m s { move with axes := mergeAdjacent m move.axes }
        = .ok { s with dims := ds } ∧ ds.length = s.dims.length ∧
      SpellsWithin m bounds { s with dims := ds } B := by
  obtain ⟨d, hd⟩ : ∃ d, s.dims[move.source]? = some d := ⟨_, List.getElem?_eq_getElem hsource⟩
  obtain ⟨e, he⟩ : ∃ e, s.dims[move.target]? = some e := ⟨_, List.getElem?_eq_getElem htarget⟩
  have hvB := hAB.forall (P := AllValid m) (fun _ _ => allValid_append) h.atoms
  have hwB := hAB.forall (P := Within m bounds) (fun _ _ => within_append) h.atomsWithin
  have hlB := hAB.forall (P := fun l => ∀ a ∈ l, 1 < a.size m)
    (fun _ _ => List.forall_mem_append) h.atomsLarge
  have hvx := (allValid_append.1 (hAB.source ▸ h.atoms move.source)).2
  have hwx := (within_append.1 (hAB.source ▸ h.atomsWithin move.source)).2
  have hlx := (List.forall_mem_append.1 (hAB.source ▸ h.atomsLarge move.source)).2
  obtain ⟨hwd, hsd⟩ := h.axesFit _ d hd
  obtain ⟨hwe, hse⟩ := h.axesFit _ e he
  have hkept := takeOff_eq (c := c) move.source (fun a _ b hb' hn => hn ▸ hb b hb') (h.axes _ d hd)
    (allValid_append.2 ⟨hvB _, hvx⟩) hlx hsd hwd hwx (hAB.source ▸ h.core _ d hd)
  have hnil' : mergeAdjacent m move.axes ≠ [] := by simpa using hnil
  have hw := within_append.2 ⟨hwe, hwx.mergeAdjacent⟩
  have hs := hse.append fun b hb' => by
    obtain ⟨y, hy, hyb⟩ := exists_name_of_mem_mergeAdjacent hb'
    exact not_mem_opaqueAxes_of_within hw (hyb ▸ hb y hy)
  have hv := allValid_append.2 ⟨h.axes _ e he, hvx.mergeAdjacent⟩
  refine ⟨_, applyMove_eq hd he hne hnil' hkept, by simp [TensorSharding.modifyDim], ?_⟩
  exact ⟨spells_moved h.toSpells hAB he (hvB _).core (core_core _),
    forall_dims_moved (P := fun _ axes => Within m bounds axes ∧ Seamless m axes)
      ⟨(hwB _).core, seamless_core _⟩ ⟨hw.mergeAdjacent, hs.mergeAdjacent hv⟩
      fun k d _ _ hd => h.axesFit k d hd, hwB, hlB⟩

/-- A gather, where nothing or a suffix is taken off each dimension. -/
theorem gatherDims_eq {xs : List (List AxisRef)} {ds : List DimSharding}
    (kept : Nat → List AxisRef) (dim : Nat)
    (h : ∀ (i : Nat) (d : DimSharding) (x : List AxisRef), ds[i]? = some d →
      xs[i]? = some x → c.takeOff m (dim + i) d.axes x = .ok (kept (dim + i)))
    (hlen : xs.length = ds.length) :
    c.gatherDims m dim ds xs
      = .ok (ds.mapIdx fun i d => { d with axes := kept (dim + i) }) := by
  induction ds generalizing dim xs with
  | nil => simp [gatherDims]
  | cons d rest ih =>
    cases xs with
    | nil => simp at hlen
    | cons x xs =>
      have hhead := h 0 d x rfl rfl
      have htail : c.gatherDims m (dim + 1) rest xs = _ :=
        ih (dim + 1) (fun i e y he hy => by
          have := h (i + 1) e y he hy
          rwa [Nat.add_comm i 1, ← Nat.add_assoc] at this) (by simpa using hlen)
      rw [Nat.add_zero] at hhead
      simp [gatherDims, hhead, htail, bind, Except.bind, pure, Except.pure, List.mapIdx_cons,
        Nat.add_assoc, Nat.add_comm 1]

theorem allGather_eq {xs : List (List AxisRef)} (kept : Nat → List AxisRef)
    (hlen : xs.length = s.rank)
    (h : ∀ (i : Nat) (d : DimSharding) (x : List AxisRef), s.dims[i]? = some d →
      xs[i]? = some x → (allGather xs).takeOff m i d.axes x = .ok (kept i)) :
    (allGather xs).apply s m
      = .ok { s with dims := s.dims.mapIdx fun i d => { d with axes := kept i } } := by
  have hdims := gatherDims_eq (c := allGather xs) kept 0
    (by simpa only [Nat.zero_add] using h) hlen
  simp [apply, checkRank, hlen, hdims, bind, Except.bind, pure, Except.pure]

variable (bounds) in
/-- A gather drops atoms at the ends of dimensions, if in each of them the bounds divide one
another on the axes of which atoms stay and go. -/
theorem allGather_spells (h : Spells m s A) {xs : List (List AxisRef)}
    (hlen : xs.length = s.rank) (hAB : ∀ dim, A dim = B dim ++ xs.getD dim [])
    (hlarge : ∀ dim, ∀ a ∈ xs.getD dim [], 1 < a.size m)
    (hb : ∀ dim, ∀ a ∈ B dim, ∀ b ∈ xs.getD dim [], a.name = b.name → Ladder (bounds a.name))
    (hw : ∀ dim, xs.getD dim [] = [] ∨
      (FitsAt m bounds s dim ∧ Within m bounds (xs.getD dim []))) :
    ∃ ds, (allGather (xs.map (mergeAdjacent m))).apply s m = .ok { s with dims := ds } ∧
      ds.length = s.dims.length ∧ Spells m { s with dims := ds } B := by
  have hvB : ∀ dim, AllValid m (B dim) := fun dim =>
    (allValid_append.1 (hAB dim ▸ h.atoms dim)).1
  have htake : ∀ (i : Nat) (d : DimSharding) (y : List AxisRef), s.dims[i]? = some d →
      (xs.map (mergeAdjacent m))[i]? = some y →
      (allGather (xs.map (mergeAdjacent m))).takeOff m i d.axes y = .ok (core m (B i)) := by
    intro i d y hd hy
    rw [List.getElem?_map] at hy
    obtain ⟨x, hx, rfl⟩ := Option.map_eq_some_iff.1 hy
    have hget : xs.getD i [] = x := by simp [List.getD_eq_getElem?_getD, hx]
    have hcore := h.core i d hd
    have hsplit := hAB i
    have hlargei := hlarge i
    have hbi := hb i
    rw [hget] at hsplit hlargei hbi
    rcases hw i with hnil | ⟨hfit, hwx⟩
    · rw [hget] at hnil
      rw [hnil, List.append_nil] at hsplit
      rw [hnil, ← hsplit, ← hcore]
      exact takeOff_nil (h.axes i d hd)
    · rw [hget] at hwx
      exact takeOff_eq _ hbi (h.axes i d hd) (hsplit ▸ h.atoms i) hlargei (hfit d hd).2
        (hfit d hd).1 hwx (hsplit ▸ hcore)
  refine ⟨_, allGather_eq (fun i => core m (B i)) (by simpa using hlen) htake, by simp, ?_⟩
  have hget : ∀ (i : Nat) (e : DimSharding), (s.dims.mapIdx fun i d =>
      { d with axes := core m (B i) })[i]? = some e → e.axes = core m (B i) := by
    intro i e he
    rw [List.getElem?_mapIdx] at he
    obtain ⟨d, _, rfl⟩ := Option.map_eq_some_iff.1 he
    rfl
  refine ⟨fun i e he => ?_, hvB, fun i e he => ?_⟩
  · rw [hget i e he]; exact (hvB i).core
  · rw [hget i e he, core_core]

theorem allSlice_eq {xs : List (List AxisRef)} (hlen : xs.length = s.rank)
    (h : (allSlice xs).checkUnused m s (s.dimAxes ++ s.unreduced) xs.flatten = .ok ()) :
    (allSlice xs).apply s m = .ok { s with
      dims := List.zipWith (sliceDim m) s.dims xs
      replicated := s.replicated.filter fun a => !overlapsAny m a xs.flatten } := by
  simp [apply, checkRank, hlen, h, bind, Except.bind, pure, Except.pure]

theorem spells_zipWith_sliceDim (h : Spells m s A) {xs : List (List AxisRef)}
    (hx : AllValid m xs.flatten) (hAB : ∀ dim, B dim = A dim ++ xs.getD dim [])
    (rs : List AxisRef) :
    Spells m { s with
      dims := List.zipWith (sliceDim m) s.dims (xs.map (mergeAdjacent m))
      replicated := rs } B := by
  have hdims : ∀ (i : Nat) (e : DimSharding),
      (List.zipWith (sliceDim m) s.dims (xs.map (mergeAdjacent m)))[i]? = some e →
      AllValid m e.axes ∧ core m e.axes = core m (B i) := by
    intro i e he
    obtain ⟨d, y, hd, hy, rfl⟩ := List.getElem?_zipWith_eq_some.1 he
    rw [List.getElem?_map] at hy
    obtain ⟨x, hxi, rfl⟩ := Option.map_eq_some_iff.1 hy
    have hvx : AllValid m x := fun b hb =>
      hx b (List.mem_flatten.2 ⟨x, List.mem_of_getElem? hxi, hb⟩)
    have hv := allValid_append.2 ⟨h.axes i d hd, hvx.mergeAdjacent⟩
    have hget : xs.getD i [] = x := by simp [List.getD_eq_getElem?_getD, hxi]
    refine ⟨hv.mergeAdjacent, ?_⟩
    rw [sliceDim, DimSharding.ofAxes, core_mergeAdjacent hv, hAB, hget]
    exact core_append_congr (h.core i d hd) (core_mergeAdjacent hvx)
  refine ⟨fun i e he => (hdims i e he).1, fun i => ?_, fun i e he => (hdims i e he).2⟩
  rw [hAB]
  refine allValid_append.2 ⟨h.atoms i, fun a ha => hx a ?_⟩
  rw [List.getD_eq_getElem?_getD] at ha
  cases hxi : xs[i]? with
  | none => simp [hxi] at ha
  | some x =>
    simp only [hxi, Option.getD_some] at ha
    exact List.mem_flatten.2 ⟨x, List.mem_of_getElem? hxi, ha⟩

/-- A dimension that is not sliced keeps its bounds, and no seam comes up. -/
theorem fitsAt_zipWith_sliceDim {xs : List (List AxisRef)} {dim : Nat} (h : Spells m s A)
    (hfit : FitsAt m bounds s dim) (hx : xs.getD dim [] = []) (rs : List AxisRef) :
    FitsAt m bounds { s with
      dims := List.zipWith (sliceDim m) s.dims (xs.map (mergeAdjacent m))
      replicated := rs } dim := by
  intro e he
  obtain ⟨d, y, hd, hy, rfl⟩ := List.getElem?_zipWith_eq_some.1 he
  rw [List.getElem?_map] at hy
  obtain ⟨x, hxi, rfl⟩ := Option.map_eq_some_iff.1 hy
  have hnil : x = [] := by simpa [List.getD_eq_getElem?_getD, hxi] using hx
  subst hnil
  obtain ⟨hw, hs⟩ := hfit d hd
  simpa [sliceDim, DimSharding.ofAxes] using
    And.intro hw.mergeAdjacent (hs.mergeAdjacent (h.axes dim d hd))

variable (bounds) in
/-- A slice appends atoms that are not in use, and replication along them ends. -/
theorem allSlice_spells (h : Spells m s A) {xs : List (List AxisRef)}
    (hlen : xs.length = s.rank) (hAB : ∀ dim, B dim = A dim ++ xs.getD dim [])
    (hx : AllValid m xs.flatten) (hr : AllValid m s.replicated) (hu : AllValid m s.unreduced)
    (hA : Apart m (flat s.rank A ++ s.replicated ++ s.unreduced))
    (hB : Apart m (flat s.rank B ++ s.unreduced)) :
    ∃ ds rs, (allSlice (xs.map (mergeAdjacent m))).apply s m
        = .ok { s with dims := ds, replicated := rs } ∧
      ds.length = s.dims.length ∧ rs ⊆ s.replicated ∧
      Spells m { s with dims := ds, replicated := rs } B ∧
      Apart m (flat s.rank B ++ rs ++ s.unreduced) ∧
      ∀ dim, xs.getD dim [] = [] → FitsAt m bounds s dim →
        FitsAt m bounds { s with dims := ds, replicated := rs } dim := by
  have hlen' : (xs.map (mergeAdjacent m)).length = s.rank := by rw [List.length_map, hlen]
  generalize hsliced : (xs.map (mergeAdjacent m)).flatten = sliced
  have hvalid : AllValid m sliced := by
    intro a ha
    obtain ⟨_, hy, hay⟩ := List.mem_flatten.1 (hsliced ▸ ha)
    obtain ⟨x, hxm, rfl⟩ := List.mem_map.1 hy
    exact AllValid.mergeAdjacent (fun b hb => hx b (List.mem_flatten.2 ⟨x, hxm, hb⟩)) a hay
  have hcover : ∀ name c, coverage m name c (flat s.rank B)
      = coverage m name c (flat s.rank A) + coverage m name c sliced := by
    intro name c
    have hperm : (flat s.rank B).Perm (flat s.rank A ++ xs.flatten) := by
      rw [← flat_getD xs, hlen, show B = fun i => A i ++ xs.getD i [] from funext hAB]
      exact flat_append s.rank A _
    rw [coverage_perm hperm, coverage_append, ← hsliced, coverage_flatten_mergeAdjacent hx]
  have hunused : checkUnused (allSlice (xs.map (mergeAdjacent m))) m s
      (s.dimAxes ++ s.unreduced) sliced = .ok () :=
    checkUnused_eq_ok (allValid_append.2 ⟨h.allValid_dimAxes, hu⟩) hvalid fun name c _ => by
      have := hB name c
      simp only [coverage_append, h.coverage_dimAxes, hcover] at this ⊢
      omega
  have happly := allSlice_eq hlen' (hsliced.symm ▸ hunused)
  rw [hsliced] at happly
  have hlist : Apart m (flat s.rank A ++ sliced ++ s.unreduced) := fun name c => by
    have := hB name c
    simpa only [coverage_append, hcover] using this
  refine ⟨_, _, happly, ?_, fun _ ha => (List.mem_filter.1 ha).1,
    spells_zipWith_sliceDim h hx hAB _, fun name c => ?_,
    fun dim hnil hfit => fitsAt_zipWith_sliceDim h hfit hnil _⟩
  · rw [List.length_zipWith, hlen']
    exact Nat.min_self _
  · have := hA.filter_overlapsAny hr hvalid hlist name c
    simpa only [coverage_append, hcover] using this

end Collective
end MeshSharding
