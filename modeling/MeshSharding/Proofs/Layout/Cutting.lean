import MeshSharding.Proofs.Layout.Checked
import MeshSharding.Proofs.Propagation.Share

/-! Cutting references and merging them. The coordinates along both pieces of a reference are the
digits of the coordinate along it, so devices hold the same parts of a dimension whether its axes
are cut into pieces or merged. -/
namespace MeshSharding

namespace AxisRef

variable {m : Mesh} {a b major minor : AxisRef}

/-- What begins where a reference ends does not overlap it. -/
theorem overlaps_eq_false_of_canMerge (h : a.canMerge b m = true) : a.overlaps b m = false := by
  rw [canMerge_iff] at h
  simp [overlaps, h.2]

/-- The two references are the major and the minor piece of the first one. -/
structure CutInto (m : Mesh) (a major minor : AxisRef) : Prop where
  major_valid : major.Valid m
  minor_valid : minor.Valid m
  overlaps_eq_false : major.overlaps minor m = false
  canMerge : major.canMerge minor m = true
  merge_eq : major.merge minor m = a
  coordinate_eq (index : Nat) :
    Checked.coordinate major m (m.coordinate index)
      = .ok (major.coordinate m (m.coordinate index)) ∧
    Checked.coordinate minor m (m.coordinate index)
      = .ok (minor.coordinate m (m.coordinate index)) ∧
    Checked.coordinate a m (m.coordinate index)
      = .ok (major.coordinate m (m.coordinate index) * minor.size m
          + minor.coordinate m (m.coordinate index))

theorem cutInto_of_split {size : Nat} (ha : a.Valid m)
    (h : a.split size m = some (major, minor)) : CutInto m a major minor := by
  obtain ⟨hmajor, hminor, hmeet, hmerge, -⟩ := split_eq_some ha h
  refine ⟨hmajor, hminor, overlaps_eq_false_of_canMerge hmeet, hmeet, hmerge, fun index => ?_⟩
  have hplace := m.coordinate_length index
  refine ⟨Checked.coordinate_eq hmajor hplace, Checked.coordinate_eq hminor hplace, ?_⟩
  rw [Checked.coordinate_eq ha hplace, ← coordinate_merge hmajor hminor hmeet, hmerge]

end AxisRef

namespace AxisList

variable {m : Mesh} {l : List AxisRef}

/-- Both lists cut a dimension into as many parts, and each device holds the part of one number.
If there are too many parts to count, numbers overflow for both lists, maybe at different axes. -/
structure SameParts (m : Mesh) (l r : List AxisRef) : Prop where
  totalSize_eq : totalSize m l = totalSize m r
  partitionIndex_eq (index : Nat) :
    partitionIndex m (m.coordinate index) l = partitionIndex m (m.coordinate index) r
  partition_eq (index : Nat) : totalSize m r < wordBound →
    Checked.partition m (m.coordinate index) l = Checked.partition m (m.coordinate index) r ∧
    Checked.partition m (m.coordinate index) r
      = .ok (partitionIndex m (m.coordinate index) r, totalSize m r)
  overflows (index : Nat) : wordBound ≤ totalSize m r →
    (∃ context, Checked.partition m (m.coordinate index) l = .error (.overflow context)) ∧
    ∃ context, Checked.partition m (m.coordinate index) r = .error (.overflow context)

theorem sameParts_mergeAdjacent (h : AllValid m l) : SameParts m (mergeAdjacent m l) l := by
  have hsize := totalSize_mergeAdjacent m l
  constructor
  case totalSize_eq => exact hsize
  case partitionIndex_eq => exact fun index => partitionIndex_mergeAdjacent h
  case partition_eq =>
    intro index hfit
    have hplace := m.coordinate_length index
    have hl := Checked.partition_eq h hplace hfit
    refine ⟨?_, hl⟩
    rw [hl, Checked.partition_eq h.mergeAdjacent hplace (hsize ▸ hfit), hsize,
      partitionIndex_mergeAdjacent h]
  case overflows =>
    intro index hfit
    have hplace := m.coordinate_length index
    exact ⟨Checked.partition_overflows h.mergeAdjacent hplace (hsize ▸ hfit),
      Checked.partition_overflows h hplace hfit⟩

/-- Cutting a reference and merging its pieces again changes nothing that a device holds: the
coordinate along a reference has the coordinates along its pieces as digits, and so merging the
adjacent references of a list keeps the number of parts and the part of each device. -/
theorem cutInto_split_and_sameParts_mergeAdjacent (m : Mesh) :
    (∀ (a major minor : AxisRef) (size : Nat), a.Valid m →
      a.split size m = some (major, minor) → a.CutInto m major minor) ∧
    ∀ l, AllValid m l → SameParts m (mergeAdjacent m l) l :=
  ⟨fun _ _ _ _ ha h => AxisRef.cutInto_of_split ha h, fun _ hl => sameParts_mergeAdjacent hl⟩

/-- A window within an axis of size 24, cut into pieces whose sizes have no common divisor. -/
theorem cutInto_split_and_sameParts_mergeAdjacent_grid :
    let m := Mesh.grid 24 2 (by decide) (by decide)
    let a := AxisRef.sub "x" 2 12
    let l : List AxisRef := [.sub "x" 2 4, .sub "x" 8 3, .full "y"]
    a.Valid m ∧ a.split 4 m = some (.sub "x" 2 4, .sub "x" 8 3) ∧
      a.CutInto m (.sub "x" 2 4) (.sub "x" 8 3) ∧
      AllValid m l ∧ mergeAdjacent m l = [a, .full "y"] ∧ SameParts m [a, .full "y"] l := by
  intro m a l
  have ha : a.Valid m := by
    unfold AxisRef.Valid
    decide
  have hsplit : a.split 4 m = some (.sub "x" 2 4, .sub "x" 8 3) := by decide
  have hl : AllValid m l := by
    unfold AllValid AxisRef.Valid
    decide
  have hmerged : mergeAdjacent m l = [a, .full "y"] := by decide
  obtain ⟨hcut, hsame⟩ := cutInto_split_and_sameParts_mergeAdjacent m
  exact ⟨ha, hsplit, hcut _ _ _ 4 ha hsplit, hl, hmerged, hmerged ▸ hsame l hl⟩

end AxisList
end MeshSharding
