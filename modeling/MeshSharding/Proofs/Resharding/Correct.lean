import MeshSharding.Proofs.Resharding.Synthesis

/-! Correctness of resharding. The collectives for two valid shardings lead from the source
to a sharding that spells the target, and so to its layout. -/
namespace MeshSharding

open AxisList

namespace TensorSharding

variable {m : Mesh} {s t : TensorSharding}

theorem hasSameLayout_iff : s.hasSameLayout t m = true ↔
    s.meshName = t.meshName ∧ s.rank = t.rank ∧
      mergeAdjacent m s.unreduced = mergeAdjacent m t.unreduced ∧
      ∀ (dim : Nat) (d e : DimSharding), s.dims[dim]? = some d → t.dims[dim]? = some e →
        mergeAdjacent m d.axes = mergeAdjacent m e.axes := by
  have hzip : (∀ p ∈ s.dims.zip t.dims, mergeAdjacent m p.1.axes = mergeAdjacent m p.2.axes) ↔
      ∀ (dim : Nat) (d e : DimSharding), s.dims[dim]? = some d → t.dims[dim]? = some e →
        mergeAdjacent m d.axes = mergeAdjacent m e.axes := by
    constructor
    · intro h dim d e hd he
      have hmem : (s.dims.zip t.dims)[dim]? = some (d, e) :=
        List.getElem?_zip_eq_some.2 ⟨hd, he⟩
      exact h _ (List.mem_of_getElem? hmem)
    · rintro h ⟨d, e⟩ hp
      obtain ⟨dim, hdim⟩ := List.mem_iff_getElem?.1 hp
      obtain ⟨hd, he⟩ := List.getElem?_zip_eq_some.1 hdim
      exact h dim d e hd he
  rw [← hzip]
  simp only [hasSameLayout, equivalent, decide_eq_true_eq, List.all_eq_true]

theorem hasSameLayout_refl (s : TensorSharding) (m : Mesh) : s.hasSameLayout s m = true :=
  hasSameLayout_iff.2 ⟨rfl, rfl, rfl, fun _ _ _ hd he => by rw [Option.some.inj (hd.symm.trans he)]⟩

theorem hasSameLayout_symm (h : s.hasSameLayout t m = true) : t.hasSameLayout s m = true := by
  obtain ⟨hname, hrank, hunreduced, hdims⟩ := hasSameLayout_iff.1 h
  exact hasSameLayout_iff.2 ⟨hname.symm, hrank.symm, hunreduced.symm,
    fun dim d e hd he => (hdims dim e d he hd).symm⟩

/-- A valid sharding is a stage on the way to itself. -/
theorem Valid.apart_axesAt (h : s.Valid m) :
    Apart m (flat s.rank s.axesAt ++ s.replicated ++ s.unreduced) := by
  rw [flat_axesAt]
  exact h.2

end TensorSharding

namespace Resharding

variable {m : Mesh} {source target : TensorSharding}

theorem stage_source (target : TensorSharding) (hs : source.Valid m) :
    Stage m source target source source.axesAt where
  toSpells := hs.spells
  meshName := rfl
  rank := rfl
  replicated := hs.allValid_extra.1
  unreduced := hs.allValid_extra.2
  unreduced_eq := rfl
  apart := hs.apart_axesAt
  fits dim d _ hd _ := .inl (by rw [TensorSharding.axesAt_eq hd])

theorem stage_target (ht : target.Valid m) (hmesh : source.meshName = target.meshName)
    (hrank : source.rank = target.rank)
    (hu : mergeAdjacent m source.unreduced = mergeAdjacent m target.unreduced) :
    Stage m source target target target.axesAt where
  toSpells := ht.spells
  meshName := hmesh.symm
  rank := hrank.symm
  replicated := ht.allValid_extra.1
  unreduced := ht.allValid_extra.2
  unreduced_eq := hu.symm
  apart := ht.apart_axesAt
  fits dim _ e _ he := .inr (by rw [TensorSharding.axesAt_eq he])

/-- There are collectives from a seamless source to a sharding that spells the target. -/
theorem run_reshard_of_seamless (hs : source.Valid m) (ht : target.Valid m)
    (hseam : source.Seamless m)
    (hmesh : source.meshName = target.meshName) (hrank : source.rank = target.rank)
    (hu : mergeAdjacent m source.unreduced = mergeAdjacent m target.unreduced) :
    ∃ cs A t B, reshard source target m = .ok cs ∧ Stage m source target source A ∧
      Run m source target cs source A t B ∧
      ∀ (dim : Nat) (d e : DimSharding), t.dims[dim]? = some d → target.dims[dim]? = some e →
        core m d.axes = core m e.axes := by
  have hequiv : equivalent m source.unreduced target.unreduced = true := by
    simpa [equivalent] using hu
  unfold reshard
  rw [if_neg (by simpa using hmesh), if_neg (by simpa using hrank), if_neg (by simp [hequiv])]
  by_cases hsame : source.hasSameLayout target m = true
  · rw [if_pos hsame]
    refine ⟨_, _, _, _, rfl, stage_source target hs, .nil _ _, fun dim d e hd he => ?_⟩
    obtain ⟨_, _, _, hdims⟩ := TensorSharding.hasSameLayout_iff.1 hsame
    exact core_eq_of_mergeAdjacent_eq (hs.allValid_axes hd) (ht.allValid_axes he)
      (hdims dim d e hd he)
  · rw [if_neg hsame]
    by_cases hsizes : source.shardedSizes m = target.shardedSizes m
    · rw [if_pos hsizes]
      have hequiv' : equivalent m target.unreduced source.unreduced = true := by
        simpa [equivalent] using hu.symm
      have happly : (Collective.permute target).apply source m = .ok target := by
        simp [Collective.apply, hmesh, hrank, hsizes, hequiv']
      refine ⟨_, _, _, _, rfl, stage_source target hs,
        .single happly (stage_target ht hmesh hrank hu) ?_, fun dim d e hd he => ?_⟩
      · have hproduct := congrArg Sizes.product hsizes
        rw [hs.spells.product_shardedSizes, ht.spells.product_shardedSizes, ← hrank] at hproduct
        exact hproduct
      · rw [hd] at he
        cases he
        rfl
    · rw [if_neg hsizes, synthesize_eq hs.allValid_dims ht.allValid_dims]
      have hroute := route_spec hs ht hseam hrank hu
      obtain ⟨A, t, hstage, hrun⟩ := hroute.run_collectives
      refine ⟨_, A, t, _, rfl, hstage, hrun, fun dim d e hd he => ?_⟩
      have hdim : dim < source.rank := by
        rw [hrank]
        exact (List.getElem?_eq_some_iff.1 he).1
      rw [(hrun.stage hstage).core dim d hd,
        Route.reached_eq hroute.links.toLeads (hroute.rank ▸ hdim),
        hroute.goal.core dim e he]

theorem run_reshard (hs : source.Valid m) (ht : target.Valid m) (htr : source.Transparent m)
    (hmesh : source.meshName = target.meshName) (hrank : source.rank = target.rank)
    (hu : mergeAdjacent m source.unreduced = mergeAdjacent m target.unreduced) :
    ∃ cs A t B, reshard source target m = .ok cs ∧ Stage m source target source A ∧
      Run m source target cs source A t B ∧
      ∀ (dim : Nat) (d e : DimSharding), t.dims[dim]? = some d → target.dims[dim]? = some e →
        core m d.axes = core m e.axes :=
  run_reshard_of_seamless hs ht (htr.seamless hs) hmesh hrank hu

/-- On a mesh without axes of size 1, resharding from a transparent source succeeds, and
its collectives lead to the layout of the target. -/
theorem applyAll_reshard (m : Mesh) (hm : ∀ axis ∈ m.axes, 2 ≤ axis.size)
    (source target : TensorSharding) (sourceShape targetShape : Shape)
    (hmesh : source.meshName = target.meshName) (hrank : source.rank = target.rank)
    (hu : mergeAdjacent m source.unreduced = mergeAdjacent m target.unreduced)
    (hs : source.validate m sourceShape = .ok ()) (ht : target.validate m targetShape = .ok ())
    (htr : source.Transparent m) :
    ∃ cs reached, reshard source target m = .ok cs ∧
      Collective.applyAll cs source m = .ok reached ∧
      reached.hasSameLayout target m = true := by
  have hs := (TensorSharding.validate_eq_ok_iff.1 hs).2
  have ht := (TensorSharding.validate_eq_ok_iff.1 ht).2
  obtain ⟨cs, A, t, B, hreshard, hstart, hrun, hcore⟩ := run_reshard hs ht htr hmesh hrank hu
  have hstage := hrun.stage hstart
  refine ⟨cs, t, hreshard, hrun.applyAll, TensorSharding.hasSameLayout_iff.2
    ⟨hstage.meshName.trans hmesh, hstage.rank.trans hrank, hstage.unreduced_eq.trans hu,
      fun dim d e hd he => ?_⟩⟩
  rw [← core_eq_mergeAdjacent hm (hstage.axes dim d hd),
    ← core_eq_mergeAdjacent hm (ht.allValid_axes he)]
  exact hcore dim d e hd he

/-- The halves of `x` change places, and `y` moves to the other dimension. -/
theorem applyAll_reshard_grid :
    let m := Mesh.grid 4 2 (by decide) (by decide)
    let source := TensorSharding.ofDims "mesh"
      [.ofAxes [.sub "x" 2 2, .full "y"] true, .ofAxes [.sub "x" 1 2] true]
    let target := TensorSharding.ofDims "mesh"
      [.ofAxes [.sub "x" 1 2] true, .ofAxes [.sub "x" 2 2, .full "y"] true]
    ∃ cs reached, reshard source target m = .ok cs ∧
      Collective.applyAll cs source m = .ok reached ∧
      reached.hasSameLayout target m = true :=
  applyAll_reshard _ (by decide) _ _ [8, 8] [8, 8] rfl rfl rfl (by decide) (by decide)
    ⟨_, rfl, by decide⟩

end Resharding
end MeshSharding
