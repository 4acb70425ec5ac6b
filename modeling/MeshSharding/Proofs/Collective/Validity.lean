import MeshSharding.Proofs.Collective.Regrouping

/-! Validity behind collectives. Gathers and slices that can be applied lead from valid
shardings to valid ones, whatever references they are given. Moves never lead to a place that is
covered twice, but they put the references that they are given onto their targets, also those
of which no atom was looked for, so it depends on these whether the sharding is valid. -/
namespace MeshSharding

open AxisList

variable {m : Mesh} {c : Collective} {s t : TensorSharding}

namespace TensorSharding

/-- Dimensions that cover no more than the ones before them keep the sharding valid. -/
theorem Valid.withDims (h : s.Valid m) {ds : List DimSharding}
    (hv : AllValid m (ds.flatMap (·.axes)))
    (hc : ∀ name p, coverage m name p (ds.flatMap (·.axes)) ≤ coverage m name p s.dimAxes) :
    ({ s with dims := ds } : TensorSharding).Valid m := by
  have hextra := h.allValid_extra
  refine ⟨allValid_append.2 ⟨allValid_append.2 ⟨hv, hextra.1⟩, hextra.2⟩, fun name p => ?_⟩
  have hapart := h.2 name p
  have hle := hc name p
  simp only [usedAxes, dimAxes, coverage_append] at hapart hle ⊢
  omega

theorem ValidDims.allValid_usedAxes (ht : t.ValidDims m) (hs : s.Valid m)
    (hr : t.replicated = s.replicated) (hu : t.unreduced = s.unreduced) :
    AllValid m t.usedAxes := by
  have hextra := hs.allValid_extra
  rw [usedAxes, hr, hu]
  exact allValid_append.2 ⟨allValid_append.2 ⟨ht.allValid_dimAxes, hextra.1⟩, hextra.2⟩

end TensorSharding

namespace Collective

open TensorSharding

section gather

/-- What a gather leaves is valid. -/
theorem valid_allGather {axes : List (List AxisRef)} (hs : s.Valid m)
    (h : (allGather axes).apply s m = .ok t) : t.Valid m := by
  obtain ⟨A, hA, ht, hrank, hvalid, hx⟩ := exists_spells_allGather hs.allValid_dims h
  rw [ht]
  refine hs.withDims hvalid.allValid_dimAxes fun name p => ?_
  have hsub : (flat s.rank t.axesAt).Sublist (flat s.rank A) := flat_sublist fun dim => by
    obtain ⟨x, hAx⟩ := hx dim
    rw [hAx]
    exact List.sublist_append_left _ _
  have hle := coverage_sublist (m := m) hsub name p
  rwa [← hA.coverage_dimAxes, ← hrank, flat_axesAt] at hle

end gather

section slice

/-- Axes that were checked are valid, and apart from those in use. -/
theorem apart_of_checkUnused {used l : List AxisRef} (hu : AllValid m used) (ha : Apart m used)
    (h : c.checkUnused m s used l = .ok ()) : AllValid m l ∧ Apart m (used ++ l) := by
  induction l generalizing used with
  | nil => exact ⟨nofun, by rwa [List.append_nil]⟩
  | cons a rest ih =>
    obtain ⟨_, hvalid, h⟩ := bind_eq_ok_iff.1 h
    split at h
    · cases h
    · rename_i hfree
      have hva : a.Valid m := hvalid
      have hsnoc : Apart m (used ++ [a]) := (apart_snoc hva hu).2
        ⟨ha, fun b hb hov => hfree (List.any_eq_true.2 ⟨b, hb, hov⟩)⟩
      obtain ⟨hrest, happend⟩ :=
        ih (allValid_append.2 ⟨hu, by simpa [AllValid] using hva⟩) hsnoc h
      exact ⟨allValid_cons.2 ⟨hva, hrest⟩, by rwa [List.append_assoc] at happend⟩

theorem apart_of_slicing (hs : s.Valid m) {l : List AxisRef}
    (h : c.checkUnused m s (s.dimAxes ++ s.unreduced) l = .ok ()) :
    AllValid m l ∧ Apart m (s.dimAxes ++ s.unreduced ++ l) := by
  refine apart_of_checkUnused
    (allValid_append.2 ⟨hs.allValid_dims.allValid_dimAxes, hs.allValid_extra.2⟩)
    (fun name p => ?_) h
  have := hs.2 name p
  simp only [usedAxes, coverage_append] at this ⊢
  omega

theorem zipWith_sliceDim_spec {ds : List DimSharding} {xs : List (List AxisRef)}
    (hlen : xs.length = ds.length) (hds : AllValid m (ds.flatMap (·.axes)))
    (hx : AllValid m xs.flatten) :
    AllValid m ((List.zipWith (sliceDim m) ds xs).flatMap (·.axes)) ∧
      ∀ name p, coverage m name p ((List.zipWith (sliceDim m) ds xs).flatMap (·.axes))
        = coverage m name p (ds.flatMap (·.axes)) + coverage m name p xs.flatten := by
  induction ds generalizing xs with
  | nil =>
    obtain rfl := List.length_eq_zero_iff.1 hlen
    exact ⟨nofun, fun _ _ => rfl⟩
  | cons d rest ih =>
    cases xs with
    | nil => cases hlen
    | cons x xs =>
      rw [List.flatMap_cons, allValid_append] at hds
      rw [List.flatten_cons, allValid_append] at hx
      have hjoined := allValid_append.2 ⟨hds.1, hx.1⟩
      obtain ⟨hvalid, hcover⟩ := ih (by simpa using hlen) hds.2 hx.2
      refine ⟨allValid_append.2 ⟨hjoined.mergeAdjacent, hvalid⟩, fun name p => ?_⟩
      have hrest := hcover name p
      simp only [List.zipWith_cons_cons, List.flatMap_cons, List.flatten_cons, coverage_append]
      rw [hrest, sliceDim, DimSharding.ofAxes, coverage_mergeAdjacent hjoined, coverage_append]
      omega

theorem valid_allSlice {axes : List (List AxisRef)} (hs : s.Valid m)
    (h : (allSlice axes).apply s m = .ok t) : t.Valid m := by
  obtain ⟨_, hrank, h⟩ := bind_eq_ok_iff.1 h
  obtain ⟨_, hunused, h⟩ := bind_eq_ok_iff.1 h
  cases h
  have hdims := hs.allValid_dims.allValid_dimAxes
  have hextra := hs.allValid_extra
  obtain ⟨hx, hapart⟩ := apart_of_slicing hs hunused
  obtain ⟨hvalid, hcover⟩ := zipWith_sliceDim_spec (checkRank_eq_ok_iff.1 hrank) hdims hx
  have hall : Apart m (s.dimAxes ++ axes.flatten
      ++ (s.replicated.filter fun a => !overlapsAny m a axes.flatten) ++ s.unreduced) := by
    refine Apart.filter_overlapsAny hextra.1 hx hs.2 (hapart.perm ?_)
    rw [List.append_assoc, List.append_assoc]
    exact List.Perm.append_left _ List.perm_append_comm
  have hreplicated := hextra.1.subset
    (List.filter_sublist (p := fun a => !overlapsAny m a axes.flatten)).subset
  refine ⟨allValid_append.2 ⟨allValid_append.2 ⟨hvalid, hreplicated⟩, hextra.2⟩,
    fun name p => ?_⟩
  have := hall name p
  have := hcover name p
  simp only [usedAxes, dimAxes, coverage_append] at *
  omega

end slice

/-- No collective changes the rank of the tensor. -/
theorem rank_of_apply (hs : s.Valid m) (h : c.apply s m = .ok t) : t.rank = s.rank := by
  cases c with
  | allGather axes =>
    obtain ⟨_, -, -, hrank, -⟩ := exists_spells_allGather hs.allValid_dims h
    exact hrank
  | allSlice axes =>
    obtain ⟨_, hrank, h⟩ := bind_eq_ok_iff.1 h
    obtain ⟨_, -, h⟩ := bind_eq_ok_iff.1 h
    cases h
    simp [rank, checkRank_eq_ok_iff.1 hrank]
  | allToAll moves => exact (rearranges_foldlM_applyMove hs.1.upright h).rank
  | permute out =>
    obtain ⟨rfl, -, hrank, -⟩ := apply_permute_eq_ok_iff.1 h
    exact hrank

/-- No collective leads to references that overlap; only moves may lead to invalid ones. -/
theorem valid_iff_of_apply (hs : s.Valid m) (hout : ∀ out, c = permute out → out.Valid m)
    (h : c.apply s m = .ok t) : t.Valid m ↔ t.ValidDims m := by
  refine ⟨Valid.allValid_dims, fun ht => ?_⟩
  cases c with
  | allGather axes => exact valid_allGather hs h
  | allSlice axes => exact valid_allSlice hs h
  | allToAll moves =>
    have hmoved := rearranges_foldlM_applyMove hs.1.upright h
    exact ⟨ht.allValid_usedAxes hs hmoved.replicated hmoved.unreduced, hmoved.apart hs.2⟩
  | permute out =>
    obtain ⟨rfl, -⟩ := apply_permute_eq_ok_iff.1 h
    exact hout t rfl

/-- A collective whose moves have valid references leads from valid shardings to valid ones. -/
theorem valid_of_apply (hs : s.Valid m) (hout : ∀ out, c = permute out → out.Valid m)
    (hmoves : ∀ moves, c = allToAll moves → ∀ move ∈ moves, AllValid m move.axes)
    (h : c.apply s m = .ok t) : t.Valid m := by
  cases c with
  | allGather axes => exact valid_allGather hs h
  | allSlice axes => exact valid_allSlice hs h
  | allToAll moves =>
    exact ⟨allValid_foldlM_applyMove hs.1 (hmoves moves rfl) h,
      (rearranges_foldlM_applyMove hs.1.upright h).apart hs.2⟩
  | permute out =>
    obtain ⟨rfl, -⟩ := apply_permute_eq_ok_iff.1 h
    exact hout t rfl

section validate

/-- What a collective makes of a valid sharding is valid exactly if the references along its
dimensions are, and they are if those that it was given to move are. -/
theorem validate_apply_iff (m : Mesh) (s t : TensorSharding) (c : Collective) (shape : Shape)
    (hs : s.validate m shape = .ok ())
    (hout : ∀ out, c = permute out → out.validate m shape = .ok ())
    (h : c.apply s m = .ok t) :
    (t.validate m shape = .ok () ↔ ∀ a ∈ t.dimAxes, a.validate m = .ok ()) ∧
      ((∀ moves, c = allToAll moves →
          ∀ move ∈ moves, ∀ a ∈ move.axes, a.validate m = .ok ()) →
        t.validate m shape = .ok ()) := by
  obtain ⟨hrank, hvalid⟩ := validate_eq_ok_iff.1 hs
  have hout' : ∀ out, c = permute out → out.Valid m := fun out hc =>
    (validate_eq_ok_iff.1 (hout out hc)).2
  have hrank' : t.rank = shape.length := (rank_of_apply hvalid h).trans hrank
  constructor
  · rw [validate_eq_ok_iff]
    constructor
    · rintro ⟨-, ht⟩
      exact ht.allValid_dims.allValid_dimAxes
    · intro ht
      refine ⟨hrank', (valid_iff_of_apply hvalid hout' h).2 fun d hd a ha => ht a ?_⟩
      exact List.mem_flatMap.2 ⟨d, hd, ha⟩
  · intro hmoves
    exact validate_eq_ok_iff.2 ⟨hrank', valid_of_apply hvalid hout' hmoves h⟩

/-- A half of `x` moves with all of `y`. -/
theorem validate_apply_iff_grid :
    let m := Mesh.grid 4 2 (by decide) (by decide)
    let s := ofDims "mesh" [.ofAxes [.full "x", .full "y"] true, .ofAxes [] true]
    let t := ofDims "mesh" [.ofAxes [.sub "x" 1 2] true, .ofAxes [.sub "x" 2 2, .full "y"] true]
    let c := allToAll [⟨[.sub "x" 2 2, .full "y"], 0, 1⟩]
    s.validate m [8, 8] = .ok () ∧ c.apply s m = .ok t ∧
      (t.validate m [8, 8] = .ok () ↔ ∀ a ∈ t.dimAxes, a.validate m = .ok ()) ∧
      ((∀ moves, c = allToAll moves →
          ∀ move ∈ moves, ∀ a ∈ move.axes, a.validate m = .ok ()) →
        t.validate m [8, 8] = .ok ()) := by
  intro m s t c
  have hs : s.validate m [8, 8] = .ok () := by decide
  have happly : c.apply s m = .ok t := by decide
  exact ⟨hs, happly, validate_apply_iff m s t c [8, 8] hs nofun happly⟩

/-- An axis that the mesh does not have has no atoms, so a move may take it from anywhere. -/
theorem not_validate_apply_unknown :
    let m := Mesh.grid 2 2 (by decide) (by decide)
    let s := ofDims "mesh" [.ofAxes [.full "x"] true, .ofAxes [] true]
    let t := ofDims "mesh" [.ofAxes [.full "x"] true, .ofAxes [.full "q"] true]
    let c := allToAll [⟨[.full "q"], 0, 1⟩]
    s.validate m [4, 4] = .ok () ∧ c.apply s m = .ok t ∧
      ¬ t.validate m [4, 4] = .ok () ∧ t.validate m [4, 4] = .error (.unknownAxis "q") := by
  decide

end validate

end Collective
end MeshSharding
