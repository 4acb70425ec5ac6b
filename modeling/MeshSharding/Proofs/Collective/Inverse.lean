import MeshSharding.Proofs.AxisList.Clear
import MeshSharding.Proofs.Collective.Commutation
import MeshSharding.Proofs.Collective.Validity
import MeshSharding.Proofs.Resharding.Correct

/-! Undoing collectives. Where no axis is opaque, a gather takes off what a slice appended, a
slice appends what a gather took off, and a move can be made back. -/
namespace MeshSharding

open AxisList

variable {m : Mesh} {c : Collective} {s t : TensorSharding} {lists : List (List AxisRef)}

namespace Collective

section gather

/-- A gather of the lists that were sliced. -/
theorem allGather_undoes (hm : m.NoUnitAxes) (hs : s.Valid m)
    (hlists : AllValid m lists.flatten) (hclear : Clear m (s.dimAxes ++ lists.flatten))
    (h : (allSlice lists).apply s m = .ok t) :
    ∃ u, (allGather lists).apply t m = .ok u ∧ u.hasSameLayout s m = true := by
  obtain ⟨_, hrank, h⟩ := bind_eq_ok_iff.1 h
  obtain ⟨_, -, h⟩ := bind_eq_ok_iff.1 h
  cases h
  have hlen := checkRank_eq_ok_iff.1 hrank
  have htake : ∀ (i : Nat) (e : DimSharding) (x : List AxisRef),
      (List.zipWith (sliceDim m) s.dims lists)[i]? = some e → lists[i]? = some x →
      (allGather lists).takeOff m i e.axes x = .ok (core m (s.axesAt i)) := by
    intro i e x he hx
    obtain ⟨d, x', hd, hx', rfl⟩ := List.getElem?_zipWith_eq_some.1 he
    obtain rfl : x = x' := Option.some.inj (hx.symm.trans hx')
    have hsub : x ⊆ lists.flatten := fun a ha =>
      List.mem_flatten.2 ⟨x, List.mem_of_getElem? hx, ha⟩
    have hdsub : d.axes ⊆ s.dimAxes := fun a ha =>
      List.mem_flatMap.2 ⟨d, List.mem_of_getElem? hd, ha⟩
    rw [s.axesAt_eq hd]
    refine takeOff_eq_ok_iff.2 (removeSuffix_mergeAdjacent_append (hclear.subset ?_)
      (allValid_append.2 ⟨hs.allValid_axes hd, hlists.subset hsub⟩))
    exact List.append_subset.2 ⟨List.subset_append_of_subset_left _ hdsub,
      List.subset_append_of_subset_right _ hsub⟩
  have hrank' : lists.length = TensorSharding.rank { s with
      dims := List.zipWith (sliceDim m) s.dims lists
      replicated := s.replicated.filter fun a => !overlapsAny m a lists.flatten } := by
    simp [TensorSharding.rank, hlen]
  refine ⟨_, allGather_eq (fun i => core m (s.axesAt i)) hrank' htake,
    TensorSharding.hasSameLayout_iff.2 ⟨rfl, ?_, rfl, fun i e d he hd => ?_⟩⟩
  · simp [TensorSharding.rank, hlen]
  · rw [List.getElem?_mapIdx] at he
    obtain ⟨_, -, rfl⟩ := Option.map_eq_some_iff.1 he
    dsimp only
    rw [s.axesAt_eq hd, mergeAdjacent_core, core_eq_mergeAdjacent hm (hs.allValid_axes hd)]

end gather

section slice

/-- What a gather takes off no longer covers its places. -/
theorem coverage_gatherDims {ds ds' : List DimSharding} {dim : Nat}
    (h : c.gatherDims m dim ds lists = .ok ds') (hlen : lists.length = ds.length)
    (name : String) (p : Nat) :
    coverage m name p (ds.flatMap (·.axes))
      = coverage m name p (ds'.flatMap (·.axes)) + coverage m name p lists.flatten := by
  induction ds generalizing lists ds' dim with
  | nil =>
    cases h
    simp [List.length_eq_zero_iff.1 hlen]
  | cons d rest ih =>
    cases lists with
    | nil => cases hlen
    | cons x lists =>
      obtain ⟨kept, htake, h⟩ := bind_eq_ok_iff.1 h
      obtain ⟨more, hmore, h⟩ := bind_eq_ok_iff.1 h
      cases h
      obtain ⟨-, -, hplaces⟩ := places_removeSuffix (takeOff_eq_ok_iff.1 htake)
      have hhead : coverage m name p d.axes = coverage m name p kept + coverage m name p x := by
        simp only [coverage_eq_count, hplaces, List.count_append]
      have htail := ih hmore (by simpa using hlen)
      simp only [List.flatMap_cons, List.flatten_cons, coverage_append, hhead, htail]
      omega

/-- A slice along the lists that were gathered; opaque axes do not keep it from being applied. -/
theorem allSlice_undoes (hm : m.NoUnitAxes) (hs : s.Valid m) (hlists : AllValid m lists.flatten)
    (h : (allGather lists).apply s m = .ok t) :
    ∃ u, (allSlice lists).apply t m = .ok u ∧ u.hasSameLayout s m = true := by
  have ht := valid_allGather hs h
  obtain ⟨_, hrank, h⟩ := bind_eq_ok_iff.1 h
  obtain ⟨ds, hds, h⟩ := bind_eq_ok_iff.1 h
  cases h
  have hlen := checkRank_eq_ok_iff.1 hrank
  obtain ⟨hlength, hdims⟩ := gatherDims_eq_ok hds hlen
  have hunused : (allSlice lists).checkUnused m { s with dims := ds }
      (ds.flatMap (·.axes) ++ s.unreduced) lists.flatten = .ok () := by
    refine checkUnused_eq_ok (allValid_append.2
      ⟨ht.allValid_dims.allValid_dimAxes, hs.allValid_extra.2⟩) hlists fun name p _ => ?_
    have hcover := coverage_gatherDims hds hlen name p
    have hapart := hs.2 name p
    simp only [TensorSharding.usedAxes, TensorSharding.dimAxes, coverage_append] at hapart ⊢
    omega
  have hrank' : lists.length = TensorSharding.rank { s with dims := ds } := by
    rw [hlen]
    exact hlength.symm
  refine ⟨_, allSlice_eq hrank' hunused,
    TensorSharding.hasSameLayout_iff.2 ⟨rfl, ?_, rfl, fun i e d he hd => ?_⟩⟩
  · simp [TensorSharding.rank, hlen, hlength]
  · obtain ⟨k, x, hk, hx, rfl⟩ := List.getElem?_zipWith_eq_some.1 he
    obtain ⟨d', x', hd', hx', hremove⟩ := hdims i k hk
    obtain rfl : d = d' := Option.some.inj (hd.symm.trans hd')
    obtain rfl : x = x' := Option.some.inj (hx.symm.trans hx')
    have hvx : AllValid m x := hlists.subset fun a ha =>
      List.mem_flatten.2 ⟨x, List.mem_of_getElem? hx, ha⟩
    have hvd := hs.allValid_axes hd
    obtain ⟨hvk, hcore⟩ := removeSuffix_eq_some (allValid_append.2 ⟨hvd, hvx⟩) hremove
    rw [sliceDim, DimSharding.ofAxes, mergeAdjacent_mergeAdjacent,
      ← core_eq_mergeAdjacent hm (allValid_append.2 ⟨hvk, hvx⟩), hcore,
      core_eq_mergeAdjacent hm hvd]

end slice

section exchange

/-- The axes of two dimensions are apart. -/
theorem apart_of_dims (hs : s.Valid m) {i j : Nat} {d e : DimSharding} (hne : i ≠ j)
    (hd : s.dims[i]? = some d) (he : s.dims[j]? = some e) : Apart m (d.axes ++ e.axes) := by
  have hmem : e.axes ∈ (s.dims.eraseIdx i).map (·.axes) :=
    List.mem_map_of_mem (List.mem_eraseIdx_iff_getElem?.2 ⟨j, hne.symm, he⟩)
  have hsub : e.axes.Sublist (s.axesOutside i) := by
    rw [TensorSharding.axesOutside, List.flatMap_def, List.append_assoc]
    exact (List.sublist_flatten_of_mem hmem).trans (List.sublist_append_left _ _)
  exact ((TensorSharding.valid_iff hd).1 hs).2.sublist (hsub.append_left d.axes)

theorem apply_allToAll_singleton (move : Move) :
    (allToAll [move]).apply s m = (allToAll [move]).applyMove m s move := by
  simp [apply]

/-- The move back. -/
theorem allToAll_undoes (hm : m.NoUnitAxes) (hs : s.Valid m) (hclear : Clear m s.dimAxes)
    {axes : List AxisRef} (haxes : AllValid m axes) {i j : Nat}
    (h : (allToAll [⟨axes, i, j⟩]).apply s m = .ok t) :
    ∃ u, (allToAll [⟨axes, j, i⟩]).apply t m = .ok u ∧ u.hasSameLayout s m = true := by
  rw [apply_allToAll_singleton] at h ⊢
  obtain ⟨d, e, kept, hd, he, hne, hnil, hremove, rfl⟩ := applyMove_eq_ok_iff.1 h
  dsimp only at hd he hne hnil hremove
  have hvd := hs.allValid_axes hd
  have hve := hs.allValid_axes he
  have hlarge : ∀ {l}, AllValid m l → ∀ a ∈ l, a.preSize < a.nextPreSize m := fun hl a ha =>
    (hl a ha).preSize_lt_nextPreSize ((hl a ha).one_lt_size hm)
  have hdims : Clear m (d.axes ++ e.axes) := hclear.subset (List.append_subset.2
    ⟨fun a ha => List.mem_flatMap.2 ⟨d, List.mem_of_getElem? hd, ha⟩,
      fun a ha => List.mem_flatMap.2 ⟨e, List.mem_of_getElem? he, ha⟩⟩)
  obtain ⟨-, -, hplaces⟩ := places_removeSuffix hremove
  have hjoined : Clear m (e.axes ++ axes) := by
    refine hdims.append_of_apart (clear_append_of_removeSuffix
      (hdims.subset (List.subset_append_left _ _)) hremove) (apart_of_dims hs hne hd he)
      (fun p hp => ?_) (hlarge hve) (hlarge haxes)
    rw [hplaces]
    exact List.mem_append_right _ hp
  have hback := removeSuffix_mergeAdjacent_append hjoined (allValid_append.2 ⟨hve, haxes⟩)
  obtain ⟨hvk, hcore⟩ := removeSuffix_eq_some (allValid_append.2 ⟨hvd, haxes⟩) hremove
  refine ⟨_, applyMove_eq_ok_iff.2 ⟨_, _, _, dims_moved_target he hne _ _,
    dims_moved_source hd hne _ _, hne.symm, hnil, hback, rfl⟩,
    TensorSharding.hasSameLayout_iff.2 ⟨rfl, by simp [moved], rfl, fun k x y hx hy => ?_⟩⟩
  refine forall_dims_moved
    (P := fun k l => ∀ y, s.dims[k]? = some y → mergeAdjacent m l = mergeAdjacent m y.axes)
    ?_ ?_ ?_ k x hx y hy
  · intro y hy
    obtain rfl : e = y := Option.some.inj (he.symm.trans hy)
    rw [mergeAdjacent_core, core_eq_mergeAdjacent hm hve]
  · intro y hy
    obtain rfl : d = y := Option.some.inj (hd.symm.trans hy)
    rw [mergeAdjacent_mergeAdjacent, ← core_eq_mergeAdjacent hm (allValid_append.2 ⟨hvk, haxes⟩),
      hcore, core_eq_mergeAdjacent hm hvd]
  · intro k x hk hk' hx y hy
    rw [dims_moved_of_ne hk' hk, hy] at hx
    rw [Option.some.inj hx]

end exchange

section undo

/-- On a mesh without axes of size 1, and where `lists` make no axis of the sharding opaque, a
gather undoes a slice of them and a slice undoes a gather of them. A move of valid references
can be made back. -/
theorem exists_undo_of_apply (m : Mesh) (hm : ∀ axis ∈ m.axes, 2 ≤ axis.size)
    (s : TensorSharding) (shape : Shape) (hs : s.validate m shape = .ok ())
    (lists : List (List AxisRef)) (hlists : ∀ axes ∈ lists, ∀ a ∈ axes, a.validate m = .ok ())
    (hclear : ∃ cut, atomize m (s.dims.map (·.axes) ++ lists) = .ok cut ∧ cut.opaqueAxes = []) :
    (∀ t, (allSlice lists).apply s m = .ok t →
      ∃ u, (allGather lists).apply t m = .ok u ∧ u.hasSameLayout s m = true) ∧
    (∀ t, (allGather lists).apply s m = .ok t →
      ∃ u, (allSlice lists).apply t m = .ok u ∧ u.hasSameLayout s m = true) ∧
    ∀ axes i j t, (∀ a ∈ axes, a.validate m = .ok ()) →
      (allToAll [⟨axes, i, j⟩]).apply s m = .ok t →
      ∃ u, (allToAll [⟨axes, j, i⟩]).apply t m = .ok u ∧ u.hasSameLayout s m = true := by
  have hs := (TensorSharding.validate_eq_ok_iff.1 hs).2
  have hvalid : AllValid m lists.flatten := by
    intro a ha
    obtain ⟨axes, haxes, ha⟩ := List.mem_flatten.1 ha
    exact hlists axes haxes a ha
  obtain ⟨cut, hcut, hnone⟩ := hclear
  obtain ⟨rfl, -⟩ := atomize_eq_ok hcut
  rw [List.flatten_append, s.flatten_dims, ← clear_iff] at hnone
  exact ⟨fun t h => allGather_undoes hm hs hvalid hnone h,
    fun t h => allSlice_undoes hm hs hvalid h,
    fun axes i j t haxes h =>
      allToAll_undoes hm hs (hnone.subset (List.subset_append_left _ _)) haxes h⟩

/-- The eighths of `x` are split off the window that they were merged into, a quarter is put
back, and a quarter comes back from behind `y`. -/
theorem exists_undo_of_apply_grid :
    let m := Mesh.grid 16 2 (by decide) (by decide)
    let s := TensorSharding.ofDims "mesh"
      [.ofAxes [.sub "x" 1 4] true, .ofAxes [.sub "x" 8 2, .full "y"] true]
    let sliced := TensorSharding.ofDims "mesh"
      [.ofAxes [.sub "x" 1 8] true, .ofAxes [.sub "x" 8 2, .full "y"] true]
    let gathered := TensorSharding.ofDims "mesh"
      [.ofAxes [.sub "x" 1 2] true, .ofAxes [.sub "x" 8 2] true]
    let moved := TensorSharding.ofDims "mesh"
      [.ofAxes [.sub "x" 1 2] true, .ofAxes [.sub "x" 8 2, .full "y", .sub "x" 2 2] true]
    ((allSlice [[.sub "x" 4 2], []]).apply s m = .ok sliced ∧
      ∃ u, (allGather [[.sub "x" 4 2], []]).apply sliced m = .ok u ∧
        u.hasSameLayout s m = true) ∧
    ((allGather [[.sub "x" 2 2], [.full "y"]]).apply s m = .ok gathered ∧
      ∃ u, (allSlice [[.sub "x" 2 2], [.full "y"]]).apply gathered m = .ok u ∧
        u.hasSameLayout s m = true) ∧
    ((allToAll [⟨[.sub "x" 2 2], 0, 1⟩]).apply s m = .ok moved ∧
      ∃ u, (allToAll [⟨[.sub "x" 2 2], 1, 0⟩]).apply moved m = .ok u ∧
        u.hasSameLayout s m = true) := by
  intro m s sliced gathered moved
  obtain ⟨hslice, -, hmove⟩ := exists_undo_of_apply m (by decide) s [16, 4] (by decide)
    [[.sub "x" 4 2], []] (by decide) ⟨_, rfl, by decide⟩
  obtain ⟨-, hgather, -⟩ := exists_undo_of_apply m (by decide) s [16, 4] (by decide)
    [[.sub "x" 2 2], [.full "y"]] (by decide) ⟨_, rfl, by decide⟩
  have hsliced : (allSlice [[.sub "x" 4 2], []]).apply s m = .ok sliced := by decide
  have hgathered : (allGather [[.sub "x" 2 2], [.full "y"]]).apply s m = .ok gathered := by decide
  have hmoved : (allToAll [⟨[.sub "x" 2 2], 0, 1⟩]).apply s m = .ok moved := by decide
  exact ⟨⟨hsliced, hslice _ hsliced⟩, ⟨hgathered, hgather _ hgathered⟩,
    ⟨hmoved, hmove _ _ _ _ (by decide) hmoved⟩⟩

/-- An axis that the mesh does not have is moved out of a dimension that it is not in, and it
stays in that dimension when it comes back. -/
theorem not_exists_undo_unknown :
    let m := Mesh.grid 2 2 (by decide) (by decide)
    let s := TensorSharding.ofDims "mesh" [.ofAxes [.full "x"] true, .ofAxes [] true]
    let t := TensorSharding.ofDims "mesh" [.ofAxes [.full "x"] true, .ofAxes [.full "q"] true]
    let u := TensorSharding.ofDims "mesh" [.ofAxes [.full "x", .full "q"] true, .ofAxes [] true]
    s.validate m [4, 4] = .ok () ∧
      (∃ cut, atomize m (s.dims.map (·.axes) ++ []) = .ok cut ∧ cut.opaqueAxes = []) ∧
      (allToAll [⟨[.full "q"], 0, 1⟩]).apply s m = .ok t ∧
      (allToAll [⟨[.full "q"], 1, 0⟩]).apply t m = .ok u ∧ u.hasSameLayout s m = false := by
  intro m s t u
  exact ⟨by decide, ⟨_, rfl, by decide⟩, by decide, by decide, by decide⟩

end undo

end Collective
end MeshSharding
