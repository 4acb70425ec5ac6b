import MeshSharding.Proofs.Collective.Validity

/-! Validity behind collectives. A collective whose references are valid leads from a valid
sharding to a valid one, and the collectives of a resharding have such references, so every
sharding on the way is valid. -/
namespace MeshSharding

open AxisList

variable {m : Mesh} {c : Collective} {s t source target : TensorSharding} {n : Nat}

namespace TensorSharding

/-- The sharding fits tensors of rank `n`, and no dimension has a priority. -/
structure Fits (m : Mesh) (n : Nat) (s : TensorSharding) : Prop where
  rank : s.rank = n
  valid : s.Valid m
  unranked : s.Unranked

end TensorSharding

namespace Collective

/-- The references of the collective are valid; a slice checks its own ones. -/
def Refers (m : Mesh) : Collective → Prop
  | allGather axes => AllValid m axes.flatten
  | allSlice _ => True
  | allToAll moves => ∀ move ∈ moves, AllValid m move.axes
  | permute out => out.Valid m ∧ out.Unranked

theorem priority_gatherDims {dim : Nat} {ds ds' : List DimSharding} {xs : List (List AxisRef)}
    (hds : ∀ d ∈ ds, d.priority = none) (h : c.gatherDims m dim ds xs = .ok ds') :
    ∀ d ∈ ds', d.priority = none := by
  induction ds generalizing dim xs ds' with
  | nil =>
    cases h
    exact hds
  | cons d rest ih =>
    cases xs with
    | nil =>
      cases h
      exact hds
    | cons x xs =>
      obtain ⟨kept, -, h⟩ := bind_eq_ok_iff.1 h
      obtain ⟨more, hmore, h⟩ := bind_eq_ok_iff.1 h
      cases h
      rw [List.forall_mem_cons] at hds ⊢
      exact ⟨hds.1, ih hds.2 hmore⟩

theorem unranked_foldlM_applyMove (hs : s.Unranked) {moves : List Move}
    (h : moves.foldlM (c.applyMove m) s = .ok t) : t.Unranked := by
  refine foldlM_keeps h hs fun move _ u u' hu hmove => ?_
  obtain ⟨d, e, kept, -, -, -, -, rfl⟩ := applyMove_eq_ok hmove
  apply TensorSharding.Unranked.modifyDim
  · exact hu.modifyDim fun _ _ => rfl
  · exact fun _ _ => rfl

theorem unranked_of_apply (hc : c.Refers m) (hs : s.Unranked) (h : c.apply s m = .ok t) :
    t.Unranked := by
  cases c with
  | allGather axes =>
    obtain ⟨_, -, h⟩ := bind_eq_ok_iff.1 h
    obtain ⟨ds, hds, h⟩ := bind_eq_ok_iff.1 h
    cases h
    exact priority_gatherDims hs hds
  | allSlice axes =>
    obtain ⟨_, -, h⟩ := bind_eq_ok_iff.1 h
    obtain ⟨_, -, h⟩ := bind_eq_ok_iff.1 h
    cases h
    intro d hd
    obtain ⟨i, hi⟩ := List.getElem?_of_mem hd
    obtain ⟨_, _, -, -, rfl⟩ := List.getElem?_zipWith_eq_some.1 hi
    rfl
  | allToAll moves => exact unranked_foldlM_applyMove hs h
  | permute out =>
    obtain ⟨rfl, -⟩ := apply_permute_eq_ok_iff.1 h
    exact hc.2

/-- A collective with valid references leads from valid shardings to valid ones. -/
theorem fits_apply (hc : c.Refers m) (hs : s.Fits m n) (h : c.apply s m = .ok t) :
    t.Fits m n := by
  refine ⟨(rank_of_apply hs.valid h).trans hs.rank, valid_of_apply hs.valid ?_ ?_ h,
    unranked_of_apply hc hs.unranked h⟩
  · rintro out rfl
    exact hc.1
  · rintro moves rfl
    exact hc

end Collective

namespace Resharding

open Collective

variable {S T : List (List AxisRef)} {p : Plan} {cs : List Collective}

theorem valid_alignDim (h : Links S T p) (hrank : S.length = source.rank)
    (hS : Spells m source (S.getD · [])) (hs : source.Valid m) :
    ({ source with dims := List.zipWith (alignDim m) (aligned p) source.dims }
      : TensorSharding).Valid m := by
  have hatoms : ∀ dim, AllValid m (occupied p [] p.moves dim) := fun dim =>
    (hS.atoms dim).perm (Route.occupied_perm h dim)
  have hspells : Spells m
      { source with dims := List.zipWith (alignDim m) (aligned p) source.dims }
      (occupied p [] p.moves) := Route.spells_alignDim hatoms
  have hlength : ({ source with dims := List.zipWith (alignDim m) (aligned p) source.dims }
      : TensorSharding).rank = source.rank := by
    have hp : p.dims.length = source.dims.length := h.rank.trans hrank
    simp [TensorSharding.rank, aligned, hp]
  refine hs.withDims (fun a ha => ?_) fun name c => ?_
  · obtain ⟨d, hd, had⟩ := List.mem_flatMap.1 ha
    obtain ⟨dim, hdim⟩ := List.getElem?_of_mem hd
    exact hspells.axes dim d hdim a had
  · have hperm : coverage m name c (flat source.rank (occupied p [] p.moves))
        = coverage m name c (flat source.rank (S.getD · [])) :=
      coverage_perm (List.Perm.flatMap_left _ fun dim _ => Route.occupied_perm h dim) name c
    have hafter := hspells.coverage_dimAxes name c
    rw [hlength, hperm, ← hS.coverage_dimAxes] at hafter
    exact Nat.le_of_eq hafter

theorem refers_collectives (h : Links S T p) (hrank : S.length = source.rank)
    (hS : Spells m source (S.getD · [])) (hT : ∀ dim, AllValid m (T.getD dim []))
    (hs : source.Valid m) : ∀ c ∈ collectives p source S m, c.Refers m := by
  intro c hc
  rcases List.mem_append.1 hc with hc | hc
  · rcases List.mem_append.1 hc with hc | hc
    · unfold alignment at hc
      split at hc
      · cases hc
      · rw [List.mem_singleton.1 hc]
        refine ⟨valid_alignDim h hrank hS hs, fun d hd => ?_⟩
        obtain ⟨i, hi⟩ := List.getElem?_of_mem hd
        obtain ⟨_, _, -, -, rfl⟩ := List.getElem?_zipWith_eq_some.1 hi
        rfl
    · obtain ⟨batch, hbatch, rfl⟩ := List.mem_map.1 hc
      intro move hmove
      obtain ⟨move, hmem, rfl⟩ := List.mem_map.1 hmove
      have hmoves : move ∈ p.moves := by
        rw [← List.nil_append p.moves, ← Route.flatten_batchesFrom]
        exact List.mem_flatten.2 ⟨batch, hbatch, hmem⟩
      exact ((hT _).subset (h.axes_subset hmoves)).mergeAdjacent
  · unfold gatherAndSlice at hc
    have hgather : Refers m (allGather (p.dims.map fun d => mergeAdjacent m d.gathered)) := by
      intro a ha
      obtain ⟨_, hx, ha⟩ := List.mem_flatten.1 ha
      obtain ⟨d, hd, rfl⟩ := List.mem_map.1 hx
      obtain ⟨dim, hdim⟩ := List.getElem?_of_mem hd
      have hsub : d.gathered ⊆ S.getD dim [] := by
        have := h.gathers dim
        rwa [Plan.dim, List.getD_eq_getElem?_getD, hdim, Option.getD_some] at this
      exact ((hS.atoms dim).subset hsub).mergeAdjacent a ha
    obtain ⟨hc, -⟩ := List.mem_filter.1 hc
    split at hc <;>
      rcases List.mem_pair.1 hc with rfl | rfl <;> first | exact hgather | exact trivial

/-- The collectives between valid shardings have valid references. -/
theorem refers_reshard (hs : source.Valid m) (ht : target.Valid m) (hunranked : target.Unranked)
    (h : reshard source target m = .ok cs) : ∀ c ∈ cs, c.Refers m := by
  obtain ⟨-, hrank, -, hcs⟩ := reshard_eq_ok h
  rcases hcs with ⟨-, rfl⟩ | rfl | hcs
  · exact nofun
  · exact List.forall_mem_singleton.2 ⟨ht, hunranked⟩
  · rw [synthesize_eq hs.allValid_dims ht.allValid_dims] at hcs
    cases hcs
    have hall := allValid_append.2
      ⟨hs.allValid_dims.allValid_dimAxes, ht.allValid_dims.allValid_dimAxes⟩
    have hlinks : Links _ _ (route m source target) :=
      links_plan (by rw [length_atomLists, length_atomLists, hrank])
        (nodup_flatten_atomLists hs hall (List.subset_append_left _ _))
        (nodup_flatten_atomLists ht hall (List.subset_append_right _ _))
    exact refers_collectives hlinks (length_atomLists ..)
      (spells_atomLists hs.allValid_dims hall (List.subset_append_left _ _))
      (spells_atomLists ht.allValid_dims hall (List.subset_append_right _ _)).atoms hs

end Resharding
end MeshSharding
