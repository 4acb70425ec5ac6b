import MeshSharding.Proofs.Collective.Outcome
import MeshSharding.Proofs.Resharding.Correct

/-! Outcomes of resharding. Opaque axes, and references of the source that overlap, can keep
a collective from being applied. Where all of them are applied, they lead to what the target
spells, which is its layout but for references of size 1. -/
namespace MeshSharding

open AxisList Collective

variable {m : Mesh} {source target s t : TensorSharding} {A B : Nat → List AxisRef}

/-- Both shardings make the same shards of a tensor along every dimension. -/
structure TensorSharding.SameCores (m : Mesh) (s t : TensorSharding) : Prop where
  meshName : s.meshName = t.meshName
  rank : s.rank = t.rank
  unreduced : mergeAdjacent m s.unreduced = mergeAdjacent m t.unreduced
  dims : ∀ (dim : Nat) (d e : DimSharding), s.dims[dim]? = some d → t.dims[dim]? = some e →
    core m d.axes = core m e.axes

/-- Without axes of size 1 this is the same layout. -/
theorem TensorSharding.SameCores.hasSameLayout (h : s.SameCores m t)
    (hm : m.NoUnitAxes) (hs : s.ValidDims m) (ht : t.ValidDims m) :
    s.hasSameLayout t m = true := by
  refine hasSameLayout_iff.2 ⟨h.meshName, h.rank, h.unreduced, fun dim d e hd he => ?_⟩
  rw [← core_eq_mergeAdjacent hm (hs d (List.mem_of_getElem? hd)),
    ← core_eq_mergeAdjacent hm (ht e (List.mem_of_getElem? he))]
  exact h.dims dim d e hd he

/-- Shardings of one rank have the same dimensions. -/
theorem TensorSharding.exists_dim (h : s.rank = t.rank) {dim : Nat} {d : DimSharding}
    (hd : s.dims[dim]? = some d) : ∃ e, t.dims[dim]? = some e := by
  have hlt : dim < s.rank := (List.getElem?_eq_some_iff.1 hd).1
  rw [h] at hlt
  exact ⟨_, List.getElem?_eq_getElem hlt⟩

namespace Resharding

section plan

variable {S T : List (List AxisRef)} {p : Plan}

theorem mem_leaving {moves : List Move} {dim : Nat} {a : AxisRef} :
    a ∈ leaving moves dim ↔ ∃ move ∈ moves, move.source = dim ∧ a ∈ move.axes := by
  simp [leaving, and_assoc]

/-- All that a plan moves arrives in the target of some dimension. -/
theorem Leads.axes_subset (h : Leads S T p) {move : Move} (hmove : move ∈ p.moves) :
    move.axes ⊆ T.getD move.target [] := by
  intro a ha
  have hlt := (h.moves move hmove).2.2.2
  rw [← h.reaches _ hlt, ← h.arrives _ hlt]
  exact List.mem_append_left _ (List.mem_append_right _
    (List.mem_flatMap.2 ⟨move, List.mem_filter.2 ⟨hmove, by simp⟩, ha⟩))

theorem Leads.kept_subset (h : Leads S T p) (dim : Nat) :
    (p.dim dim).kept ⊆ T.getD dim [] := by
  by_cases hdim : dim < S.length
  · rw [← h.reaches dim hdim, List.append_assoc]
    exact List.subset_append_left _ _
  · simp [Plan.dim, List.getD_eq_getElem?_getD,
      List.getElem?_eq_none (h.rank ▸ Nat.not_lt.1 hdim)]

/-- The atoms that a plan starts from are those of the source or of the target. -/
theorem Leads.allValid_occupied (h : Leads S T p) (hS : ∀ dim, AllValid m (S.getD dim []))
    (hT : ∀ dim, AllValid m (T.getD dim [])) (dim : Nat) :
    AllValid m (occupied p [] p.moves dim) := by
  refine allValid_append.2 ⟨allValid_append.2 ⟨allValid_append.2
    ⟨(hT dim).subset (h.kept_subset dim), (hS dim).subset (h.gathers dim)⟩, fun a ha => ?_⟩,
    nofun⟩
  obtain ⟨move, hmove, -, ha⟩ := mem_leaving.1 ha
  exact hT _ a (h.axes_subset hmove ha)

/-- A permute, if there is one, leads to the order that the plan needs. -/
theorem reaches_alignment (h : Leads S T p) (hrank : S.length = source.rank)
    (hS : Spells m source (S.getD · [])) (hT : ∀ dim, AllValid m (T.getD dim []))
    (happly : applyAll (alignment p source S m) source m = .ok t) :
    Reaches m source t (occupied p [] p.moves) := by
  have hatoms := h.allValid_occupied hS.atoms hT
  unfold alignment at happly
  split at happly
  · rename_i hall
    cases happly
    exact .refl (Route.spells_of_equivalent h hrank hS hatoms hall)
  · obtain ⟨u, hpermute, happly⟩ := applyAll_cons_eq_ok_iff.1 happly
    cases happly
    exact reaches_permute (Route.spells_alignDim hatoms) hpermute

theorem reaches_batch (h : Leads S T p) {c : Collective} {done batch todo : List Move}
    (hm : p.moves = done ++ (batch ++ todo)) (hs : Spells m s (occupied p done (batch ++ todo)))
    (happly : (batch.map fun move => { move with axes := mergeAdjacent m move.axes }).foldlM
      (c.applyMove m) s = .ok t) : Reaches m s t (occupied p (done ++ batch) todo) := by
  induction batch generalizing done s with
  | nil =>
    cases happly
    simpa using Reaches.refl hs
  | cons move batch ih =>
    rw [List.map_cons, List.foldlM_cons] at happly
    obtain ⟨u, hmove, happly⟩ := bind_eq_ok_iff.1 happly
    have hne := (h.moves move (by simp [hm])).2.1
    have hshifts : Shifts move _ (occupied p (done ++ [move]) (batch ++ todo)) :=
      shifts_occupied (hm ▸ h.ordered) hne
    have hu := reaches_applyMove hs hshifts hmove
    have hm' : p.moves = done ++ [move] ++ (batch ++ todo) := by simp [hm]
    simpa using hu.trans (ih hm' hu.toSpells happly)

/-- The exchanges lead to where all moves are made. -/
theorem reaches_exchanges (h : Leads S T p) (done : List Move) {batches : List (List Move)}
    (hm : p.moves = done ++ batches.flatten)
    (hs : Spells m s (occupied p done batches.flatten))
    (happly : applyAll (batches.map fun batch => .allToAll
      (batch.map fun move => { move with axes := mergeAdjacent m move.axes })) s m = .ok t) :
    Reaches m s t (occupied p p.moves []) := by
  induction batches generalizing done s with
  | nil =>
    cases happly
    obtain rfl : p.moves = done := by simpa using hm
    exact .refl hs
  | cons batch batches ih =>
    obtain ⟨u, hbatch, happly⟩ := applyAll_cons_eq_ok_iff.1 happly
    have hu := reaches_batch h hm hs hbatch
    exact hu.trans (ih (done ++ batch) (by simpa using hm) hu.toSpells happly)

/-- A gather that is left out gathers nothing. -/
theorem reaches_gather (hs : Spells m s A)
    (hAB : ∀ dim, A dim = B dim ++ (p.dim dim).gathered)
    (happly : applyAll ([allGather (p.dims.map fun d => mergeAdjacent m d.gathered)].filter
      fun c => !c.isEmpty) s m = .ok t) : Reaches m s t B := by
  by_cases hnil : ∀ d ∈ p.dims, d.gathered = []
  · have hempty : (allGather (p.dims.map fun d => mergeAdjacent m d.gathered)).isEmpty = true := by
      simpa [isEmpty] using hnil
    have hgathered := Route.part_eq_nil p (·.gathered) rfl hnil
    obtain rfl : A = B := funext fun dim => by simp [hAB dim, hgathered dim]
    rw [List.filter_cons_of_neg (by simp [hempty])] at happly
    cases happly
    exact .refl hs
  · have hempty : (allGather (p.dims.map fun d => mergeAdjacent m d.gathered)).isEmpty = false := by
      simpa [isEmpty] using hnil
    rw [List.filter_cons_of_pos (by simp [hempty])] at happly
    obtain ⟨u, hgather, happly⟩ := applyAll_cons_eq_ok_iff.1 happly
    cases happly
    refine reaches_allGather hs (p.dims.map (·.gathered)) (fun dim => ?_)
      (by rwa [List.map_map])
    rw [Route.getD_map_dims p (·.gathered) rfl, hAB]

/-- A slice that is left out slices nothing. -/
theorem reaches_slice (h : Leads S T p) (hT : ∀ dim, AllValid m (T.getD dim []))
    (hs : Spells m s A) (hAB : ∀ dim, B dim = A dim ++ (p.dim dim).sliced)
    (happly : applyAll ([allSlice (p.dims.map fun d => mergeAdjacent m d.sliced)].filter
      fun c => !c.isEmpty) s m = .ok t) : Reaches m s t B := by
  by_cases hnil : ∀ d ∈ p.dims, d.sliced = []
  · have hempty : (allSlice (p.dims.map fun d => mergeAdjacent m d.sliced)).isEmpty = true := by
      simpa [isEmpty] using hnil
    have hsliced := Route.part_eq_nil p (·.sliced) rfl hnil
    obtain rfl : B = A := funext fun dim => by simp [hAB dim, hsliced dim]
    rw [List.filter_cons_of_neg (by simp [hempty])] at happly
    cases happly
    exact .refl hs
  · have hempty : (allSlice (p.dims.map fun d => mergeAdjacent m d.sliced)).isEmpty = false := by
      simpa [isEmpty] using hnil
    rw [List.filter_cons_of_pos (by simp [hempty])] at happly
    obtain ⟨u, hslice, happly⟩ := applyAll_cons_eq_ok_iff.1 happly
    cases happly
    refine reaches_allSlice hs (p.dims.map (·.sliced)) (Route.sliced_valid h hT)
      (fun dim => ?_) (by rwa [List.map_map])
    rw [Route.getD_map_dims p (·.sliced) rfl, hAB]

/-- Gather and slice lead to the end of the plan in either order. -/
theorem reaches_gatherAndSlice (h : Leads S T p) (hT : ∀ dim, AllValid m (T.getD dim []))
    (hs : Spells m s (occupied p p.moves []))
    (happly : applyAll (gatherAndSlice p m) s m = .ok t) :
    Reaches m s t (Route.reached p) := by
  unfold gatherAndSlice at happly
  cases hg : gathersFirst p m with
  | true =>
    dsimp only at happly
    rw [hg, if_pos rfl, ← List.singleton_append, List.filter_append] at happly
    obtain ⟨u, hgather, hslice⟩ := applyAll_append_eq_ok_iff.1 happly
    have hu := reaches_gather hs (Route.occupied_eq h) hgather
    exact hu.trans (reaches_slice h hT hu.toSpells (fun _ => rfl) hslice)
  | false =>
    dsimp only at happly
    rw [hg, if_neg Bool.false_ne_true, ← List.singleton_append, List.filter_append] at happly
    obtain ⟨u, hslice, hgather⟩ := applyAll_append_eq_ok_iff.1 happly
    have hu := reaches_slice
      (B := fun dim => occupied p p.moves [] dim ++ (p.dim dim).sliced) h hT hs (fun _ => rfl)
      hslice
    refine hu.trans (reaches_gather hu.toSpells (fun dim => ?_) hgather)
    rw [Route.occupied_eq h, Route.reached]
    rcases Route.gathered_or_sliced hg dim with hnil | hnil <;> simp [hnil]

/-- The collectives of a plan lead to its end. -/
theorem reaches_collectives (h : Leads S T p) (hrank : S.length = source.rank)
    (hS : Spells m source (S.getD · [])) (hT : ∀ dim, AllValid m (T.getD dim []))
    (happly : applyAll (collectives p source S m) source m = .ok t) :
    Reaches m source t (Route.reached p) := by
  obtain ⟨v, happly, hend⟩ := applyAll_append_eq_ok_iff.1 happly
  obtain ⟨u, halign, hexchange⟩ := applyAll_append_eq_ok_iff.1 happly
  have hu := reaches_alignment h hrank hS hT halign
  have hflat : (batchesFrom [] p.moves).flatten = p.moves := Route.flatten_batchesFrom [] p.moves
  have hv := reaches_exchanges h [] hflat.symm (hflat.symm ▸ hu.toSpells) hexchange
  exact hu.trans (hv.trans (reaches_gatherAndSlice h hT hv.toSpells hend))

end plan

/-- Shardings that can be resharded differ in the axes of their dimensions only. -/
theorem reshard_eq_ok {cs : List Collective} (h : reshard source target m = .ok cs) :
    source.meshName = target.meshName ∧ source.rank = target.rank ∧
      mergeAdjacent m source.unreduced = mergeAdjacent m target.unreduced ∧
      (source.hasSameLayout target m = true ∧ cs = [] ∨ cs = [.permute target] ∨
        synthesize source target m = .ok cs) := by
  unfold reshard at h
  split at h
  · cases h
  · rename_i hmesh
    split at h
    · cases h
    · rename_i hrank
      split at h
      · cases h
      · rename_i hunreduced
        refine ⟨not_not.1 hmesh, not_not.1 hrank, by simpa [equivalent] using hunreduced, ?_⟩
        split at h
        · rename_i hsame
          cases h
          exact .inl ⟨hsame, rfl⟩
        · split at h
          · cases h
            exact .inr (.inl rfl)
          · exact .inr (.inr h)

/-- Where the collectives that are synthesized can be applied, they lead to what the target
spells. -/
theorem reaches_synthesize {cs : List Collective} (hs : source.ValidDims m)
    (ht : target.ValidDims m) (hrank : source.rank = target.rank)
    (h : synthesize source target m = .ok cs) (happly : applyAll cs source m = .ok t) :
    Reaches m source t target.axesAt := by
  rw [synthesize_eq hs ht] at h
  cases h
  have hall := allValid_append.2 ⟨hs.allValid_dimAxes, ht.allValid_dimAxes⟩
  have hleads : Leads (atomLists m (source.dimAxes ++ target.dimAxes) source)
      (atomLists m (source.dimAxes ++ target.dimAxes) target) (route m source target) :=
    leads_plan (by rw [length_atomLists, length_atomLists, hrank])
  have hgoal := spells_atomLists ht hall (List.subset_append_right _ _)
  have hend := reaches_collectives hleads (length_atomLists ..)
    (spells_atomLists hs hall (List.subset_append_left _ _)) hgoal.atoms happly
  refine ⟨⟨hend.axes, ht.spells.atoms, fun dim d hd => ?_⟩, hend.meshName, hend.rank,
    hend.unreduced⟩
  have hlt : dim < source.rank := hend.rank ▸ (List.getElem?_eq_some_iff.1 hd).1
  obtain ⟨e, he⟩ := TensorSharding.exists_dim (hend.rank.trans hrank) hd
  rw [hend.core dim d hd, Route.reached_eq hleads (by rwa [length_atomLists]),
    TensorSharding.axesAt_eq he]
  exact (hgoal.core dim e he).symm

/-- Wherever the collectives of a resharding can be applied, they lead to what the target
spells. -/
theorem sameCores_of_applyAll_reshard {cs : List Collective} (hs : source.ValidDims m)
    (ht : target.ValidDims m) (h : reshard source target m = .ok cs)
    (happly : applyAll cs source m = .ok t) : t.SameCores m target ∧ t.ValidDims m := by
  obtain ⟨hmesh, hrank, hunreduced, hcs⟩ := reshard_eq_ok h
  have hend : Reaches m source t target.axesAt := by
    rcases hcs with ⟨hsame, rfl⟩ | rfl | hcs
    · cases happly
      obtain ⟨_, _, _, hdims⟩ := TensorSharding.hasSameLayout_iff.1 hsame
      refine .refl ⟨hs.spells.axes, ht.spells.atoms, fun dim d hd => ?_⟩
      obtain ⟨e, he⟩ := TensorSharding.exists_dim hrank hd
      rw [TensorSharding.axesAt_eq he]
      exact core_eq_of_mergeAdjacent_eq (hs d (List.mem_of_getElem? hd))
        (ht e (List.mem_of_getElem? he)) (hdims dim d e hd he)
    · obtain ⟨u, hpermute, happly⟩ := applyAll_cons_eq_ok_iff.1 happly
      cases happly
      exact reaches_permute ht.spells hpermute
    · exact reaches_synthesize hs ht hrank hcs happly
  refine ⟨⟨hend.meshName.trans hmesh, hend.rank.trans hrank, hend.unreduced.trans hunreduced,
    fun dim d e hd he => ?_⟩, fun d hd => ?_⟩
  · rw [hend.core dim d hd, TensorSharding.axesAt_eq he]
  · obtain ⟨dim, hdim⟩ := List.getElem?_of_mem hd
    exact hend.axes dim d hdim

theorem shardedSizes_eq_of_sameCores (h : s.SameCores m t) (hs : s.ValidDims m)
    (ht : t.ValidDims m) : s.shardedSizes m = t.shardedSizes m := by
  have hlength : s.dims.length = t.dims.length := h.rank
  refine List.ext_getElem (by simpa [TensorSharding.shardedSizes]) fun i hi hi' => ?_
  simp only [TensorSharding.shardedSizes, List.length_map] at hi hi'
  have hd := List.getElem?_eq_getElem hi
  have he := List.getElem?_eq_getElem hi'
  simp only [TensorSharding.shardedSizes, List.getElem_map]
  rw [← totalSize_core (hs _ (List.getElem_mem hi)), h.dims i _ _ hd he,
    totalSize_core (ht _ (List.getElem_mem hi'))]

/-- No collective is needed only if the layout is the same: also for another order of shards of the
same number, or other axes of size 1, there is a permute. -/
theorem hasSameLayout_of_reshard_eq_nil (hs : source.ValidDims m) (ht : target.ValidDims m)
    (h : reshard source target m = .ok []) : source.hasSameLayout target m = true := by
  have hsizes := shardedSizes_eq_of_sameCores (sameCores_of_applyAll_reshard hs ht h rfl).1 hs ht
  unfold reshard at h
  rw [if_pos hsizes] at h
  split at h
  · cases h
  · split at h
    · cases h
    · split at h
      · cases h
      · split at h
        · assumption
        · cases h

end Resharding
end MeshSharding
