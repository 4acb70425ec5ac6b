import MeshSharding.Proofs.AxisList.Removal
import MeshSharding.Proofs.Collective.Effect

/-! Outcomes of collectives. A collective that can be applied leads to a sharding that spells
the regrouped atoms. Nothing is asked of the subdivisions of axes: opaque axes may keep a
suffix from being taken off, but what is left is right where it is taken off. -/
namespace MeshSharding

open AxisList

variable {m : Mesh} {c : Collective} {s t u : TensorSharding} {A B C : Nat → List AxisRef}

namespace Collective

theorem takeOff_eq_ok_iff {dim : Nat} {axes suffix kept : List AxisRef} :
    c.takeOff m dim axes suffix = .ok kept ↔ removeSuffix m axes suffix = .ok (some kept) := by
  unfold takeOff
  constructor
  · intro h
    obtain ⟨left, hremove, h⟩ := bind_eq_ok_iff.1 h
    cases left with
    | none => cases h
    | some left =>
      cases h
      exact hremove
  · intro h
    rw [h]
    rfl

/-- What a move that can be made takes off its source and puts onto its target. -/
theorem applyMove_eq_ok {move : Move} (h : c.applyMove m s move = .ok t) :
    ∃ d e kept, s.dims[move.source]? = some d ∧ s.dims[move.target]? = some e ∧
      move.source ≠ move.target ∧ removeSuffix m d.axes move.axes = .ok (some kept) ∧
      t = moved s move kept (mergeAdjacent m (e.axes ++ move.axes)) := by
  unfold applyMove at h
  split at h
  · rename_i d e hd he
    split at h
    · cases h
    · rename_i hne
      split at h
      · cases h
      · obtain ⟨kept, htake, h⟩ := bind_eq_ok_iff.1 h
        cases h
        exact ⟨d, e, kept, hd, he, hne, takeOff_eq_ok_iff.1 htake, rfl⟩
  · cases h

/-- What is left where axes that end in `x` lose it. -/
theorem core_removeSuffix {axes rest x kept : List AxisRef} (ha : AllValid m axes)
    (hr : AllValid m (rest ++ x)) (hcore : core m axes = core m (rest ++ x))
    (h : removeSuffix m axes (mergeAdjacent m x) = .ok (some kept)) :
    AllValid m kept ∧ core m kept = core m rest := by
  obtain ⟨hrest, hx⟩ := allValid_append.1 hr
  obtain ⟨hkept, hsplit⟩ :=
    removeSuffix_eq_some (allValid_append.2 ⟨ha, hx.mergeAdjacent⟩) h
  refine ⟨hkept, core_append_right_cancel (allValid_append.2 ⟨hkept, hx⟩) hr ?_⟩
  rw [← hcore, ← hsplit]
  exact core_append_congr rfl (core_mergeAdjacent hx).symm

/-- What comes of `s`, over the same mesh and with the same unreduced axes, spells `B`. -/
structure Reaches (m : Mesh) (s t : TensorSharding) (B : Nat → List AxisRef) : Prop
    extends Spells m t B where
  meshName : t.meshName = s.meshName
  rank : t.rank = s.rank
  unreduced : mergeAdjacent m t.unreduced = mergeAdjacent m s.unreduced

namespace Reaches

theorem refl (h : Spells m s A) : Reaches m s s A := ⟨h, rfl, rfl, rfl⟩

theorem trans (h : Reaches m s t A) (h' : Reaches m t u B) : Reaches m s u B :=
  ⟨h'.toSpells, h'.meshName.trans h.meshName, h'.rank.trans h.rank,
    h'.unreduced.trans h.unreduced⟩

end Reaches

theorem reaches_applyMove (hs : Spells m s A) {move : Move} (hAB : Shifts move A B)
    (h : c.applyMove m s { move with axes := mergeAdjacent m move.axes } = .ok t) :
    Reaches m s t B := by
  obtain ⟨d, e, kept, hd, he, -, hremove, rfl⟩ := applyMove_eq_ok h
  obtain ⟨hkept, hcore⟩ := core_removeSuffix (hs.axes _ d hd) (hAB.source ▸ hs.atoms _)
    (hAB.source ▸ hs.core _ d hd) hremove
  exact ⟨spells_moved hs hAB he hkept hcore, rfl, by simp [moved], rfl⟩

/-- What a gather leaves of each dimension. -/
theorem gatherDims_eq_ok {xs : List (List AxisRef)} {ds ds' : List DimSharding} {dim : Nat}
    (h : c.gatherDims m dim ds xs = .ok ds') (hlen : xs.length = ds.length) :
    ds'.length = ds.length ∧ ∀ (i : Nat) (e : DimSharding), ds'[i]? = some e →
      ∃ d x, ds[i]? = some d ∧ xs[i]? = some x ∧
        removeSuffix m d.axes x = .ok (some e.axes) := by
  induction ds generalizing xs ds' dim with
  | nil =>
    cases h
    simp
  | cons d rest ih =>
    cases xs with
    | nil => cases hlen
    | cons x xs =>
      obtain ⟨kept, htake, h⟩ := bind_eq_ok_iff.1 h
      obtain ⟨more, hmore, h⟩ := bind_eq_ok_iff.1 h
      cases h
      obtain ⟨hlength, hdims⟩ := ih hmore (by simpa using hlen)
      refine ⟨by simp [hlength], fun i e he => ?_⟩
      cases i with
      | zero =>
        cases he
        exact ⟨d, x, rfl, rfl, takeOff_eq_ok_iff.1 htake⟩
      | succ i => exact hdims i e he

theorem checkRank_eq_ok_iff {n : Nat} : c.checkRank n s = .ok () ↔ n = s.rank := by
  unfold checkRank fail
  split <;> simp [*]

/-- A gather drops atoms at the ends of dimensions. -/
theorem reaches_allGather (hs : Spells m s A) (xs : List (List AxisRef))
    (hAB : ∀ dim, A dim = B dim ++ xs.getD dim [])
    (h : (allGather (xs.map (mergeAdjacent m))).apply s m = .ok t) : Reaches m s t B := by
  obtain ⟨_, hlen, h⟩ := bind_eq_ok_iff.1 h
  obtain ⟨ds, hds, h⟩ := bind_eq_ok_iff.1 h
  cases h
  obtain ⟨hlength, hdims⟩ := gatherDims_eq_ok hds (checkRank_eq_ok_iff.1 hlen)
  have hkept : ∀ (i : Nat) (e : DimSharding), ds[i]? = some e →
      AllValid m e.axes ∧ core m e.axes = core m (B i) := by
    intro i e he
    obtain ⟨d, y, hd, hy, htake⟩ := hdims i e he
    rw [List.getElem?_map] at hy
    obtain ⟨x, hx, rfl⟩ := Option.map_eq_some_iff.1 hy
    have hsplit : A i = B i ++ x := by
      rw [hAB, List.getD_eq_getElem?_getD, hx, Option.getD_some]
    exact core_removeSuffix (hs.axes i d hd) (hsplit ▸ hs.atoms i) (hsplit ▸ hs.core i d hd) htake
  exact ⟨⟨fun i e he => (hkept i e he).1,
    fun dim => (allValid_append.1 (hAB dim ▸ hs.atoms dim)).1,
    fun i e he => (hkept i e he).2⟩, rfl, hlength, rfl⟩

/-- A slice appends atoms. -/
theorem reaches_allSlice (hs : Spells m s A) (xs : List (List AxisRef))
    (hx : AllValid m xs.flatten) (hAB : ∀ dim, B dim = A dim ++ xs.getD dim [])
    (h : (allSlice (xs.map (mergeAdjacent m))).apply s m = .ok t) : Reaches m s t B := by
  obtain ⟨_, hlen, h⟩ := bind_eq_ok_iff.1 h
  obtain ⟨_, _, h⟩ := bind_eq_ok_iff.1 h
  cases h
  refine ⟨spells_zipWith_sliceDim hs hx hAB _, rfl, ?_, rfl⟩
  simp only [TensorSharding.rank, List.length_zipWith, checkRank_eq_ok_iff.1 hlen, Nat.min_self]

/-- A permute gives a tensor the sharding it holds, which has to make as many shards. -/
theorem apply_permute_eq_ok_iff {out : TensorSharding} :
    (permute out).apply s m = .ok t ↔ t = out ∧ out.meshName = s.meshName ∧ out.rank = s.rank ∧
      out.shardedSizes m = s.shardedSizes m ∧ equivalent m out.unreduced s.unreduced = true := by
  simp only [apply, fail]
  constructor
  · intro h
    split at h
    · cases h
    · split at h
      · cases h
      · split at h
        · cases h
        · split at h
          · cases h
          · cases h
            simp_all
  · rintro ⟨rfl, hmesh, hrank, hsizes, hunreduced⟩
    simp [hmesh, hrank, hsizes, hunreduced]

/-- A permute leads to the sharding it is given. -/
theorem reaches_permute {out : TensorSharding} (hout : Spells m out B)
    (h : (permute out).apply s m = .ok t) : Reaches m s t B := by
  obtain ⟨rfl, hmesh, hrank, -, hunreduced⟩ := apply_permute_eq_ok_iff.1 h
  exact ⟨hout, hmesh, hrank, by simpa [equivalent] using hunreduced⟩

theorem meshName_of_applyMove {move : Move} (h : c.applyMove m s move = .ok t) :
    t.meshName = s.meshName := by
  obtain ⟨_, _, _, -, -, -, -, rfl⟩ := applyMove_eq_ok h
  rfl

theorem meshName_of_foldlM_applyMove {moves : List Move}
    (h : moves.foldlM (c.applyMove m) s = .ok t) : t.meshName = s.meshName :=
  foldlM_keeps (motive := fun t => t.meshName = s.meshName) h rfl fun _ _ _ _ hu hmove =>
    (meshName_of_applyMove hmove).trans hu

/-- Collectives stay on the mesh. -/
theorem meshName_of_apply (h : c.apply s m = .ok t) : t.meshName = s.meshName := by
  cases c with
  | allGather axes =>
    obtain ⟨_, _, h⟩ := bind_eq_ok_iff.1 h
    obtain ⟨dims, _, h⟩ := bind_eq_ok_iff.1 h
    cases h
    rfl
  | allSlice axes =>
    obtain ⟨_, _, h⟩ := bind_eq_ok_iff.1 h
    obtain ⟨_, _, h⟩ := bind_eq_ok_iff.1 h
    cases h
    rfl
  | allToAll moves => exact meshName_of_foldlM_applyMove h
  | permute out =>
    obtain ⟨rfl, hmesh, -⟩ := apply_permute_eq_ok_iff.1 h
    exact hmesh

theorem applyAll_cons_eq_ok_iff {cs : List Collective} :
    applyAll (c :: cs) s m = .ok t ↔ ∃ u, c.apply s m = .ok u ∧ applyAll cs u m = .ok t := by
  simp only [applyAll, List.foldlM_cons, bind_eq_ok_iff]

theorem applyAll_append_eq_ok_iff {cs ds : List Collective} :
    applyAll (cs ++ ds) s m = .ok t ↔
      ∃ u, applyAll cs s m = .ok u ∧ applyAll ds u m = .ok t := by
  simp only [applyAll, List.foldlM_append, bind_eq_ok_iff]

end Collective
end MeshSharding
