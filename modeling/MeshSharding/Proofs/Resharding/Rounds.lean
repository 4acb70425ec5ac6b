import MeshSharding.Proofs.Resharding.Synthesis

/-! The rounds of the search for a plan, and what its plan is for two valid shardings. Each round
but the last one bars an atom that could move, so there is at most one round more than such atoms.
The plan is a partition of the atoms: no atom is left out and none is used twice. -/
namespace MeshSharding
namespace Resharding

section lists

variable {α β : Type}

/-- Of the chosen lists, if they have no common element, one alone has a given element. -/
theorem existsUnique_index {l : List α} {p : α → Bool} {g : α → List β}
    (h : ((l.filter p).flatMap g).Nodup) {b : β} (hb : b ∈ (l.filter p).flatMap g) :
    ∃! i : Nat, ∃ a, l[i]? = some a ∧ p a = true ∧ b ∈ g a := by
  have hchosen : (l.filter p).flatMap g = l.flatMap fun a => if p a then g a else [] := by
    clear h hb
    induction l with
    | nil => rfl
    | cons a l ih =>
      rw [List.filter_cons, List.flatMap_cons, ← ih]
      split <;> rfl
  have hmem : ∀ {a : α}, b ∈ (if p a then g a else []) ↔ p a = true ∧ b ∈ g a := by
    intro a
    split <;> rename_i hp <;> simp [hp]
  rw [hchosen] at h hb
  obtain ⟨a, ha, hba⟩ := List.mem_flatMap.1 hb
  obtain ⟨i, hi⟩ := List.mem_iff_getElem?.1 ha
  refine ⟨i, ⟨a, hi, hmem.1 hba⟩, fun j ⟨a', hj, hba'⟩ => ?_⟩
  exact index_unique h hj hi (hmem.2 hba') hba

end lists

/-- What a plan does with the atoms of the source and of the target. -/
structure Partition (source target : List (List AxisRef)) (p : Plan) : Prop where
  rank : p.dims.length = source.length
  /-- What is kept, moved in and sliced is the target. -/
  reaches : ∀ dim < source.length, (p.dim dim).kept ++ (p.dim dim).incoming
    ++ (p.dim dim).sliced = target.getD dim []
  /-- Each atom of the source is once in what is kept, gathered or moved out. -/
  leaves : ∀ dim < source.length, ∀ a ∈ source.getD dim [],
    ((p.dim dim).kept ++ (p.dim dim).gathered
      ++ (p.moves.filter fun move => move.source = dim).flatMap (·.axes)).count a = 1
  free : ∀ dim, (p.dim dim).gathered = [] ∨ (p.dim dim).incoming = []
  /-- An atom that moves in is in one move into the dimension. -/
  arrives : ∀ dim < source.length, ∀ a ∈ (p.dim dim).incoming,
    ∃! i : Nat, ∃ move, p.moves[i]? = some move ∧ move.target = dim ∧ a ∈ move.axes

section partition

variable {opaqueAxes : List String} {source target : List (List AxisRef)}

theorem partition_plan (hlen : source.length = target.length) (hs : source.flatten.Nodup)
    (ht : target.flatten.Nodup) :
    Partition source target (plan (Task.ofAtoms opaqueAxes source target)) := by
  have hlinks : Links source target (plan (Task.ofAtoms opaqueAxes source target)) :=
    links_plan hlen hs ht
  have hnodup : ∀ {lists : List (List AxisRef)}, lists.flatten.Nodup → ∀ dim,
      (lists.getD dim []).Nodup := by
    intro lists h dim
    rw [List.getD_eq_getElem?_getD]
    cases hdim : lists[dim]? with
    | none => exact .nil
    | some l => exact (List.nodup_flatten.1 h).1 l (List.mem_of_getElem? hdim)
  refine ⟨hlinks.rank, hlinks.reaches, fun dim hdim a ha => ?_, hlinks.free,
    fun dim hdim a ha => ?_⟩
  · have hleaving := (leaving_perm (.refl (plan (Task.ofAtoms opaqueAxes source target)).moves)
      dim).symm
    rw [((hleaving.append_left _).trans (hlinks.leaves dim hdim)).count_eq]
    exact List.count_eq_one_of_mem (hnodup hs dim) ha
  · have htarget := hnodup ht dim
    rw [← hlinks.reaches dim hdim] at htarget
    have hincoming := (List.nodup_append.1 (List.nodup_append.1 htarget).1).2.1
    rw [← hlinks.arrives dim hdim, arrived] at hincoming ha
    simpa using existsUnique_index hincoming ha

/-- Whatever the atoms of the source and of the target are, the search ends with one round more than
there are atoms that can move, or before. For two valid shardings of a tensor its plan is a
partition of their atoms. -/
theorem search_eq_plan_partition :
    (∀ (opaqueAxes : List String) (source target : List (List AxisRef)),
      let t := Task.ofAtoms opaqueAxes source target
      search t ((t.movable.map (·.1)).dedup.length + 1) [] = some (plan t)) ∧
    ∀ (m : Mesh) (shape : Shape) (source target : TensorSharding),
      source.validate m shape = .ok () → target.validate m shape = .ok () →
        ∃ cut, AxisList.atomize m (source.dims.map (·.axes) ++ target.dims.map (·.axes))
            = .ok cut ∧
          let sourceAtoms := cut.lists.take source.rank
          let targetAtoms := cut.lists.drop source.rank
          sourceAtoms.length = shape.length ∧ Partition sourceAtoms targetAtoms
            (plan (Task.ofAtoms cut.opaqueAxes sourceAtoms targetAtoms)) := by
  refine ⟨fun opaqueAxes source target => ?_, fun m shape source target hs ht => ?_⟩
  · obtain ⟨-, -, hsearch, -⟩ := search_openAtoms (Task.ofAtoms opaqueAxes source target)
    exact hsearch
  · obtain ⟨hrank, hs⟩ := TensorSharding.validate_eq_ok_iff.1 hs
    obtain ⟨hrank', ht⟩ := TensorSharding.validate_eq_ok_iff.1 ht
    have hall := AxisList.allValid_append.2
      ⟨hs.allValid_dims.allValid_dimAxes, ht.allValid_dims.allValid_dimAxes⟩
    have hlen := length_atomLists m (source.dimAxes ++ target.dimAxes) source
    have hlen' := length_atomLists m (source.dimAxes ++ target.dimAxes) target
    refine ⟨_, atomize_dims hs.allValid_dims ht.allValid_dims, ?_⟩
    dsimp only
    rw [List.take_left' hlen, List.drop_left' hlen]
    refine ⟨hlen.trans hrank, partition_plan ?_ ?_ ?_⟩
    · rw [hlen, hlen', hrank, hrank']
    · exact nodup_flatten_atomLists hs hall (List.subset_append_left _ _)
    · exact nodup_flatten_atomLists ht hall (List.subset_append_right _ _)

/-- Two dimensions change places, so that the moves go in a circle and are given up. -/
theorem search_eq_plan_partition_swap :
    let m := Mesh.grid 4 2 (by decide) (by decide)
    let source := TensorSharding.ofDims "mesh" [.ofAxes [.full "x"] true, .ofAxes [.full "y"] true]
    let target := TensorSharding.ofDims "mesh" [.ofAxes [.full "y"] true, .ofAxes [.full "x"] true]
    source.validate m [8, 8] = .ok () ∧ target.validate m [8, 8] = .ok () ∧
      ∃ cut, AxisList.atomize m (source.dims.map (·.axes) ++ target.dims.map (·.axes)) = .ok cut ∧
        Partition (cut.lists.take 2) (cut.lists.drop 2)
          (plan (Task.ofAtoms cut.opaqueAxes (cut.lists.take 2) (cut.lists.drop 2))) := by
  intro m source target
  have hs : source.validate m [8, 8] = .ok () := by decide
  have ht : target.validate m [8, 8] = .ok () := by decide
  obtain ⟨cut, hcut, -, hpartition⟩ := search_eq_plan_partition.2 m [8, 8] source target hs ht
  exact ⟨hs, ht, cut, hcut, hpartition⟩

end partition

end Resharding
end MeshSharding
