import MeshSharding.Proofs.Collective.Commutation
import MeshSharding.Resharding

/-! The form of what resharding returns. The phases of a plan follow one another, a phase that
would change nothing is left out, and the batches of moves are cut where a dimension would occur
twice, so the moves of one exchange do not interfere. -/
namespace MeshSharding

open AxisList

namespace Resharding

/-- At most one permute in front, exchanges behind it, and at the end at most one slice and at
most one gather, in either order. -/
def NormalForm (cs : List Collective) : Prop :=
  ∃ (out : Option TensorSharding) (batches : List (List Move)) (last : List Collective)
    (sliced gathered : List (List AxisRef)),
    cs = out.toList.map Collective.permute ++ batches.map Collective.allToAll ++ last ∧
      (last.Sublist [.allSlice sliced, .allGather gathered] ∨
        last.Sublist [.allGather gathered, .allSlice sliced])

section batches

theorem separate_of_clashes_eq_false {batch : List Move} {move : Move}
    (h : clashes batch move = false) : ∀ other ∈ batch, other.Separate move := by
  intro other hother
  have hfree := List.any_eq_false.1 h other hother
  simp only [touches, decide_eq_true_eq, not_or] at hfree
  obtain ⟨⟨hss, hts⟩, hst, htt⟩ := hfree
  exact ⟨hss, hst, hts, htt⟩

/-- A batch is closed before a move that would bring in one of its dimensions again, and never
while it is empty. -/
theorem separate_of_mem_batchesFrom (batch moves : List Move)
    (hbatch : batch.Pairwise Move.Separate) :
    ∀ run ∈ batchesFrom batch moves, run ≠ [] ∧ run.Pairwise Move.Separate := by
  fun_induction batchesFrom batch moves with
  | case1 batch hempty => simp
  | case2 batch hempty => simpa using ⟨by simpa using hempty, hbatch⟩
  | case3 batch move rest hclash ih =>
    have hne : batch ≠ [] := by
      rintro rfl
      cases hclash
    exact List.forall_mem_cons.2 ⟨⟨hne, hbatch⟩, ih (List.pairwise_singleton _ _)⟩
  | case4 batch move rest hclash ih =>
    refine ih (List.pairwise_append.2 ⟨hbatch, List.pairwise_singleton _ _, ?_⟩)
    intro other hother _ hmove
    rw [List.mem_singleton.1 hmove]
    exact separate_of_clashes_eq_false (by simpa using hclash) other hother

theorem exchanges_spec (p : Plan) (m : Mesh) : ∃ batches : List (List Move),
    exchanges p m = batches.map Collective.allToAll ∧
      ∀ moves ∈ batches, moves ≠ [] ∧ moves.Pairwise Move.Separate := by
  refine ⟨(batchesFrom [] p.moves).map fun batch =>
    batch.map fun move => { move with axes := mergeAdjacent m move.axes }, by
      simp [exchanges], ?_⟩
  intro moves hmoves
  obtain ⟨run, hrun, rfl⟩ := List.mem_map.1 hmoves
  obtain ⟨hne, hsep⟩ := separate_of_mem_batchesFrom [] p.moves .nil run hrun
  refine ⟨by simpa using hne, List.pairwise_map.2 (hsep.imp fun h => ?_)⟩
  exact h

end batches

theorem alignment_eq (p : Plan) (source : TensorSharding) (atoms : List (List AxisRef))
    (m : Mesh) : ∃ out : Option TensorSharding,
      alignment p source atoms m = out.toList.map Collective.permute := by
  unfold alignment
  split
  · exact ⟨none, rfl⟩
  · exact ⟨some _, rfl⟩

theorem gatherAndSlice_sublist (p : Plan) (m : Mesh) :
    ∃ sliced gathered : List (List AxisRef),
      (gatherAndSlice p m).Sublist [.allSlice sliced, .allGather gathered] ∨
        (gatherAndSlice p m).Sublist [.allGather gathered, .allSlice sliced] := by
  refine ⟨p.dims.map fun d => mergeAdjacent m d.sliced,
    p.dims.map fun d => mergeAdjacent m d.gathered, ?_⟩
  unfold gatherAndSlice
  cases gathersFirst p m with
  | true => exact .inr List.filter_sublist
  | false => exact .inl List.filter_sublist

theorem isEmpty_of_mem_gatherAndSlice {p : Plan} {m : Mesh} {c : Collective}
    (h : c ∈ gatherAndSlice p m) : c.isEmpty = false := by
  simpa using (List.mem_filter.1 h).2

/-- What holds of the collectives of a plan. -/
structure Orderly (cs : List Collective) : Prop where
  normalForm : NormalForm cs
  effective : ∀ c ∈ cs, c.isEmpty = false
  separate : ∀ moves, Collective.allToAll moves ∈ cs → moves.Pairwise Move.Separate

theorem orderly_nil : Orderly [] where
  normalForm := ⟨none, [], [], [], [], rfl, .inl (List.nil_sublist _)⟩
  effective := by simp
  separate := by simp

theorem orderly_permute (out : TensorSharding) : Orderly [.permute out] where
  normalForm := ⟨some out, [], [], [], [], rfl, .inl (List.nil_sublist _)⟩
  effective := by simp [Collective.isEmpty]
  separate := by simp

theorem orderly_collectives (p : Plan) (source : TensorSharding) (atoms : List (List AxisRef))
    (m : Mesh) : Orderly (collectives p source atoms m) := by
  obtain ⟨out, hout⟩ := alignment_eq p source atoms m
  obtain ⟨batches, hbatches, hspec⟩ := exchanges_spec p m
  obtain ⟨sliced, gathered, hlast⟩ := gatherAndSlice_sublist p m
  refine ⟨⟨out, batches, _, sliced, gathered, by rw [collectives, hout, hbatches], hlast⟩,
    fun c hc => ?_, fun moves hmoves => ?_⟩
  · rw [collectives, hout, hbatches, List.mem_append, List.mem_append] at hc
    rcases hc with (hc | hc) | hc
    · obtain ⟨_, -, rfl⟩ := List.mem_map.1 hc
      rfl
    · obtain ⟨moves, hmoves, rfl⟩ := List.mem_map.1 hc
      simpa [Collective.isEmpty] using (hspec moves hmoves).1
    · exact isEmpty_of_mem_gatherAndSlice hc
  · have hnot : Collective.allToAll moves ∉ gatherAndSlice p m := fun h => by
      rcases hlast with hlast | hlast <;> simpa using hlast.subset h
    have hin : moves ∈ batches := by
      simpa [collectives, hout, hbatches, hnot] using hmoves
    exact (hspec moves hin).2

theorem orderly_of_reshard {source target : TensorSharding} {m : Mesh} {cs : List Collective}
    (h : reshard source target m = .ok cs) : Orderly cs := by
  unfold reshard at h
  split at h
  · cases h
  · split at h
    · cases h
    · split at h
      · cases h
      · split at h
        · cases h
          exact orderly_nil
        · split at h
          · cases h
            exact orderly_permute target
          · obtain ⟨cut, -, h⟩ := bind_eq_ok_iff.1 h
            cases h
            exact orderly_collectives _ _ _ _

/-- What is returned for two shardings is in normal form and leaves out what is empty. No
exchange has a dimension in two of its moves, so its moves may be made in any order. -/
theorem normalForm_of_reshard (source target : TensorSharding) (m : Mesh) (cs : List Collective)
    (h : reshard source target m = .ok cs) :
    NormalForm cs ∧ (∀ c ∈ cs, c.isEmpty = false) ∧
      ∀ moves, Collective.allToAll moves ∈ cs →
        moves.Pairwise Move.Separate ∧
          ∀ moves' s t, moves.Perm moves' → (Collective.allToAll moves).apply s m = .ok t →
            (Collective.allToAll moves').apply s m = .ok t := by
  have horderly := orderly_of_reshard h
  refine ⟨horderly.normalForm, horderly.effective, fun moves hmoves => ?_⟩
  have hsep := horderly.separate moves hmoves
  exact ⟨hsep, fun moves' s t hperm happly => Collective.apply_allToAll_perm hperm hsep happly⟩

/-- After a permute one exchange moves two parts of `x`, and at the end `y` is gathered and
sliced. -/
theorem normalForm_of_reshard_grid :
    let m := Mesh.grid 16 4 (by decide) (by decide)
    let source := TensorSharding.ofDims "mesh"
      [.ofAxes [.sub "x" 2 2, .sub "x" 8 2] true, .ofAxes [] true,
        .ofAxes [.sub "y" 1 2, .sub "x" 4 2] true, .ofAxes [] true]
    let target := TensorSharding.ofDims "mesh"
      [.ofAxes [.sub "x" 8 2] true, .ofAxes [.sub "x" 2 2] true, .ofAxes [.sub "y" 2 2] true,
        .ofAxes [.sub "x" 4 2] true]
    let aligned := TensorSharding.ofDims "mesh"
      [.ofAxes [.sub "x" 8 2, .sub "x" 2 2] true, .ofAxes [] true,
        .ofAxes [.sub "y" 1 2, .sub "x" 4 2] true, .ofAxes [] true]
    let moves : List Move := [⟨[.sub "x" 2 2], 0, 1⟩, ⟨[.sub "x" 4 2], 2, 3⟩]
    let cs := [Collective.permute aligned, .allToAll moves,
      .allGather [[], [], [.sub "y" 1 2], []], .allSlice [[], [], [.sub "y" 2 2], []]]
    reshard source target m = .ok cs ∧ NormalForm cs ∧ (∀ c ∈ cs, c.isEmpty = false) ∧
      moves.Pairwise Move.Separate ∧
        ∀ s t, (Collective.allToAll moves).apply s m = .ok t →
          (Collective.allToAll moves.reverse).apply s m = .ok t := by
  intro m source target aligned moves cs
  have hcs : reshard source target m = .ok cs := eq_ok_of_toOption (by decide +kernel)
  obtain ⟨hform, heffective, hexchanges⟩ := normalForm_of_reshard source target m cs hcs
  obtain ⟨hsep, hperm⟩ := hexchanges moves (by simp [cs])
  exact ⟨hcs, hform, heffective, hsep, fun s t happly =>
    hperm _ s t (List.reverse_perm moves).symm happly⟩

end Resharding
end MeshSharding
