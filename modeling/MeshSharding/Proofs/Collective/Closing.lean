import MeshSharding.Proofs.Collective.Outcome

/-! Closed dimensions. A collective reads only the axes of a sharding, so it does the same
where all dimensions are closed. -/
namespace MeshSharding

open AxisList

variable {m : Mesh} {c : Collective} {s t : TensorSharding}

def DimSharding.close (d : DimSharding) : DimSharding := { d with closed := true }

@[simp] theorem DimSharding.close_axes (d : DimSharding) : d.close.axes = d.axes := rfl

namespace TensorSharding

theorem closedLike_eq (s : TensorSharding) : s.closedLike = s.mapDims DimSharding.close := rfl

@[simp] theorem closedLike_closedLike (s : TensorSharding) :
    s.closedLike.closedLike = s.closedLike := by simp [closedLike, mapDims]

@[simp] theorem closedLike_rank (s : TensorSharding) : s.closedLike.rank = s.rank :=
  mapDims_rank ..

@[simp] theorem closedLike_dimAxes (s : TensorSharding) : s.closedLike.dimAxes = s.dimAxes := by
  simp [closedLike, mapDims, dimAxes, List.flatMap_map]

@[simp] theorem closedLike_shardedSizes (s : TensorSharding) (m : Mesh) :
    s.closedLike.shardedSizes m = s.shardedSizes m := by
  simp [closedLike, mapDims, shardedSizes]

theorem closedLike_dims (s : TensorSharding) (dim : Nat) :
    s.closedLike.dims[dim]? = (s.dims[dim]?).map DimSharding.close := List.getElem?_map

theorem modifyDim_closedLike (s : TensorSharding) (dim : Nat) (axes : List AxisRef) :
    s.closedLike.modifyDim dim (fun d => { d with axes := axes })
      = (s.modifyDim dim fun d => { d with axes := axes }).closedLike := by
  simp only [closedLike_eq, mapDims, modifyDim, TensorSharding.mk.injEq, and_true, true_and]
  refine List.ext_getElem? fun i => ?_
  simp only [List.getElem?_modify, List.getElem?_map, Option.map_eq_map, Option.map_map]
  refine congrArg (Option.map · s.dims[i]?) (funext fun d => ?_)
  simp only [Function.comp_apply]
  split <;> rfl

end TensorSharding

namespace Collective

theorem checkRank_closedLike (n : Nat) : c.checkRank n s.closedLike = c.checkRank n s := by
  simp [checkRank]

theorem gatherDims_close (dim : Nat) (ds : List DimSharding) (xs : List (List AxisRef)) :
    c.gatherDims m dim (ds.map DimSharding.close) xs
      = (c.gatherDims m dim ds xs).map (List.map DimSharding.close) := by
  induction ds generalizing dim xs with
  | nil => rfl
  | cons d ds ih =>
    cases xs with
    | nil => rfl
    | cons x xs =>
      rw [List.map_cons, gatherDims, gatherDims, ih, DimSharding.close_axes]
      cases c.takeOff m dim d.axes x with
      | error e => rfl
      | ok kept => cases c.gatherDims m (dim + 1) ds xs <;> rfl

/-- The sharding is there for the message only. -/
theorem checkUnused_congr {used axes : List AxisRef} (h : c.checkUnused m s used axes = .ok ())
    (t : TensorSharding) : c.checkUnused m t used axes = .ok () := by
  induction axes generalizing used with
  | nil => rfl
  | cons a rest ih =>
    obtain ⟨_, hvalid, h⟩ := bind_eq_ok_iff.1 h
    refine bind_eq_ok_iff.2 ⟨_, hvalid, ?_⟩
    split at h
    · cases h
    · rename_i hfree
      rw [if_neg hfree]
      exact ih h

theorem applyMove_closedLike (move : Move) :
    c.applyMove m s.closedLike move = (c.applyMove m s move).map TensorSharding.closedLike := by
  unfold applyMove
  rw [TensorSharding.closedLike_dims, TensorSharding.closedLike_dims]
  cases s.dims[move.source]? with
  | none => simp [fail, Except.map]
  | some d =>
    cases s.dims[move.target]? with
    | none => simp [fail, Except.map]
    | some e =>
      simp only [Option.map_some, TensorSharding.closedLike_rank,
        TensorSharding.modifyDim_closedLike, DimSharding.close_axes]
      split
      · rfl
      · split
        · rfl
        · cases c.takeOff m move.source d.axes move.axes <;> rfl

theorem foldlM_applyMove_closedLike {moves : List Move}
    (h : moves.foldlM (c.applyMove m) s = .ok t) :
    moves.foldlM (c.applyMove m) s.closedLike = .ok t.closedLike := by
  induction moves generalizing s with
  | nil => cases h; rfl
  | cons move rest ih =>
    rw [List.foldlM_cons] at h ⊢
    obtain ⟨u, hmove, h⟩ := bind_eq_ok_iff.1 h
    rw [applyMove_closedLike, hmove]
    exact ih h

/-- A permute opens the dimensions that are open in the sharding it holds; else collectives
leave closed what is closed. -/
theorem apply_closedLike (h : c.apply s m = .ok t) :
    ∃ u, c.apply s.closedLike m = .ok u ∧ u.closedLike = t.closedLike := by
  cases c with
  | allGather axes =>
    obtain ⟨_, hrank, h⟩ := bind_eq_ok_iff.1 h
    obtain ⟨dims, hdims, h⟩ := bind_eq_ok_iff.1 h
    cases h
    rw [← checkRank_closedLike] at hrank
    have hdims' := (gatherDims_close 0 s.dims axes).trans (congrArg _ hdims)
    exact ⟨({ s with dims := dims } : TensorSharding).closedLike,
      bind_eq_ok_iff.2 ⟨_, hrank, bind_eq_ok_iff.2 ⟨_, hdims', rfl⟩⟩,
      TensorSharding.closedLike_closedLike _⟩
  | allSlice axes =>
    obtain ⟨_, hrank, h⟩ := bind_eq_ok_iff.1 h
    obtain ⟨_, hunused, h⟩ := bind_eq_ok_iff.1 h
    cases h
    rw [← checkRank_closedLike] at hrank
    have hunused' := checkUnused_congr hunused s.closedLike
    rw [← s.closedLike_dimAxes] at hunused'
    refine ⟨_, bind_eq_ok_iff.2 ⟨_, hrank, bind_eq_ok_iff.2 ⟨_, hunused', rfl⟩⟩, ?_⟩
    simp [TensorSharding.closedLike, TensorSharding.mapDims, List.map_zipWith,
      List.zipWith_map_left, sliceDim, DimSharding.ofAxes]
  | allToAll moves => exact ⟨_, foldlM_applyMove_closedLike h, t.closedLike_closedLike⟩
  | permute out =>
    obtain ⟨rfl, hmesh, hrank, hsizes, hunreduced⟩ := apply_permute_eq_ok_iff.1 h
    exact ⟨_, apply_permute_eq_ok_iff.2 ⟨rfl, hmesh, by simpa using hrank, by simpa using hsizes,
      hunreduced⟩, rfl⟩

end Collective
end MeshSharding
