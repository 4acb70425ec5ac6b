import MeshSharding.Proofs.Layout.Partition
import MeshSharding.Proofs.Resharding.Run

/-! Layouts under collectives. The slices of a device depend on the atoms of the dimensions
only, and regrouping the atoms changes its shard in the way the collective allows. -/
namespace MeshSharding
namespace Layout

open AxisList Resharding

variable {m : Mesh} {shape : Shape} {s t : TensorSharding} {A B : Nat → List AxisRef}

/-- The slices of a tensor whose dimensions are cut along the atoms. -/
def slicesOf (shape : Shape) (m : Mesh) (A : Nat → List AxisRef) (place : List Nat) :
    List Slice :=
  shape.mapIdx fun dim size =>
    .ofPartition size (totalSize m (A dim)) (partitionIndex m place (A dim))

/-- The atoms cut every dimension into parts of one size. -/
def Even (m : Mesh) (shape : Shape) (A : Nat → List AxisRef) : Prop :=
  ∀ (dim size : Nat), shape[dim]? = some size → totalSize m (A dim) ∣ size

theorem slicesAt_eq (h : Spells m s A) (hrank : s.rank = shape.length) (place : List Nat) :
    slicesAt shape m s place = slicesOf shape m A place := by
  refine List.ext_getElem? fun dim => ?_
  simp only [slicesAt, slicesOf, List.getElem?_map, List.getElem?_mapIdx]
  cases hsize : shape[dim]? with
  | none =>
    rw [List.getElem?_eq_none (by
      rw [List.length_zip]
      exact Nat.le_trans (Nat.min_le_left _ _) (List.getElem?_eq_none_iff.1 hsize))]
    rfl
  | some size =>
    have hlt : dim < s.dims.length := by
      have := (List.getElem?_eq_some_iff.1 hsize).1
      rw [← hrank] at this
      exact this
    have hd := List.getElem?_eq_getElem hlt
    have hzip : (shape.zip s.dims)[dim]? = some (size, s.dims[dim]) :=
      List.getElem?_zip_eq_some.2 ⟨hsize, hd⟩
    rw [hzip]
    have hcore := h.core dim _ hd
    have hindex : partitionIndex m place s.dims[dim].axes = partitionIndex m place (A dim) := by
      rw [← partitionIndex_core (h.axes dim _ hd), hcore, partitionIndex_core (h.atoms dim)]
    simp [h.totalSize_eq hd, hindex]

theorem ofSharding_eq {count : Nat} (hs : s.validate m shape = .ok ())
    (hcount : m.deviceCount = .ok count) (hfit : Sizes.fit count 88 = true) :
    ofSharding shape m s = .ok ⟨shape, (List.range count).map (shardAt shape m s)⟩ := by
  simp [ofSharding, hs, hcount, hfit, bind, Except.bind, pure, Except.pure]

/-- Shardings that spell the same atoms place the same slices. -/
theorem hasSameShards_of_spells {count : Nat} (hs : Spells m s A) (ht : Spells m t A)
    (hsr : s.rank = shape.length) (htr : t.rank = shape.length) :
    hasSameShards ⟨shape, (List.range count).map (shardAt shape m s)⟩
      ⟨shape, (List.range count).map (shardAt shape m t)⟩ = true := by
  simp only [hasSameShards, List.length_map, true_and, decide_eq_true_eq, List.all_eq_true,
    List.zip_map']
  intro p hp
  obtain ⟨index, _, rfl⟩ := List.mem_map.1 hp
  simp only [shardAt, slicesAt_eq hs hsr, slicesAt_eq ht htr]

end Layout
end MeshSharding
