import MeshSharding.Layout.Checked
import MeshSharding.Proofs.AxisList.Clear
import MeshSharding.Proofs.Collective.Checked
import MeshSharding.Proofs.Collective.Regrouping
import MeshSharding.Proofs.Layout.Devices

/-! The checks of layouts. The coordinates along valid references exist, and the number of a part
stays below the number of parts, so a partition has an answer exactly if the number of its parts
fits a word. The axes of a dimension that do not overlap make no more parts than the mesh has
devices, so once the devices are counted no check of a layout can fail. -/
namespace MeshSharding
namespace Mesh

/-- Each place of a mesh that has a layout has a device. -/
theorem deviceId_eq {m : Mesh} {index : Nat} (hm : m.places < wordBound) (hindex : index < m.places)
    (hsigned : index < signedBound) : m.deviceId index = some (m.deviceAt index) := by
  unfold deviceId
  cases hids : m.deviceIds with
  | none => exact if_pos ⟨hm, hindex, hsigned⟩
  | some ids =>
    have hlt : index < ids.length := by
      rw [m.deviceIds_length ids hids]
      exact hindex
    simp [deviceAt, hids, List.getElem?_eq_getElem hlt]

end Mesh

namespace AxisRef

variable {m : Mesh} {a : AxisRef}

/-- The mesh finds the axis of a valid reference at its place. -/
theorem Valid.axisIndex?_eq (h : a.Valid m) : m.axisIndex? a.name = some (a.place m) := by
  obtain ⟨axis, haxis, -⟩ := h.getElem?_place
  have hlt := (List.getElem?_eq_some_iff.1 haxis).1
  unfold place at hlt ⊢
  cases hindex : m.axisIndex? a.name with
  | none => simp [hindex] at hlt
  | some index => rfl

end AxisRef

namespace AxisList

variable {m : Mesh} {l r : List AxisRef}

/-- A list that runs through no place twice, and through no others than another list does, makes
no more parts. -/
theorem totalSize_le_of_places_subset (hl : AllValid m l) (hr : AllValid m r) (ha : Apart m l)
    (h : places m l ⊆ places m r) : totalSize m l ≤ totalSize m r := by
  have hnodup : (places m l).Nodup := by
    refine List.nodup_iff_count_le_one.2 fun p => ?_
    rw [← coverage_eq_count]
    exact ha p.1 p.2
  obtain ⟨l', hperm, hsub⟩ := hnodup.subperm h
  obtain ⟨more, hmore⟩ := hsub.exists_perm_append
  have hplaces : (places m r).Perm (places m l ++ more) := hmore.trans (hperm.append_right more)
  have hprod := (hplaces.map (·.2)).prod_eq
  have hprod' := (hplaces.map (·.2 + 1)).prod_eq
  rw [List.map_append, List.prod_append] at hprod hprod'
  have hle : (more.map (·.2)).prod ≤ (more.map (·.2 + 1)).prod :=
    List.prod_map_le_prod_map₀ _ _ (fun p _ => Nat.zero_le p.2) fun p _ => Nat.le_succ p.2
  have hpos := prod_places_pos hr
  refine Nat.le_of_mul_le_mul_right ?_ hpos
  calc totalSize m l * ((places m r).map (·.2)).prod
      = totalSize m l * ((places m l).map (·.2)).prod * (more.map (·.2)).prod := by
        rw [hprod, Nat.mul_assoc]
    _ = ((places m l).map (·.2 + 1)).prod * (more.map (·.2)).prod := by rw [totalSize_mul_prod hl]
    _ ≤ ((places m l).map (·.2 + 1)).prod * (more.map (·.2 + 1)).prod :=
        Nat.mul_le_mul_left _ hle
    _ = totalSize m r * ((places m r).map (·.2)).prod := by rw [totalSize_mul_prod hr, hprod']

/-- Valid references run through places of the axes of the mesh. -/
theorem places_subset_references (hl : AllValid m l) : places m l ⊆ places m m.references := by
  rintro ⟨name, c⟩ hmem
  obtain ⟨a, ha, hcovers⟩ := mem_places.1 hmem
  obtain ⟨axis, haxis, hname, hsize⟩ := (hl a ha).exists_axis
  simp only [AxisRef.covers, decide_eq_true_eq] at hcovers
  have hpos := (hl a ha).preSize_pos
  have hle := Nat.le_of_dvd (a.fullSize_pos m) (hl a ha).nextPreSize_dvd
  refine mem_places.2 ⟨.full axis.name, List.mem_map.2 ⟨axis, haxis, rfl⟩, ?_⟩
  simp only [AxisRef.covers, AxisRef.nextPreSize, Mesh.size_of_mem haxis, AxisRef.preSize_full,
    Nat.one_mul, decide_eq_true_eq]
  exact ⟨hname.trans hcovers.1, by omega, by omega⟩

/-- References that do not overlap make no more parts than there are devices. -/
theorem Apart.totalSize_le_places (ha : Apart m l) (hl : AllValid m l) :
    totalSize m l ≤ m.places := by
  rw [← m.totalSize_references]
  exact totalSize_le_of_places_subset hl m.allValid_references ha (places_subset_references hl)

end AxisList

namespace Checked

variable {m : Mesh} {a : AxisRef} {l : List AxisRef} {place : List Nat} {shape : Shape}
  {s : TensorSharding}

theorem word_eq {n : Nat} (context : String) (h : n < wordBound) : word context n = .ok n :=
  if_pos h

theorem word_overflows {n : Nat} (context : String) (h : wordBound ≤ n) :
    word context n = .error (.overflow context) := if_neg (Nat.not_lt.2 h)

section partition

open AxisList

/-- Nothing is divided by zero along a valid reference. -/
theorem coordinate_eq (h : a.Valid m) (hplace : place.length = m.axes.length) :
    coordinate a m place = .ok (a.coordinate m place) := by
  obtain ⟨axis, haxis, -⟩ := h.getElem?_place
  have hlt : a.place m < place.length := by
    rw [hplace]
    exact (List.getElem?_eq_some_iff.1 haxis).1
  have hnext := h.nextPreSize_pos
  have hbehind : 0 < a.fullSize m / a.nextPreSize m :=
    Nat.div_pos (Nat.le_of_dvd (a.fullSize_pos m) h.nextPreSize_dvd) hnext
  rw [coordinate, h.axisIndex?_eq]
  simp only [entry_eq (List.getElem?_eq_getElem hlt), quotient_eq _ (Nat.ne_of_gt hnext),
    quotient_eq _ (Nat.ne_of_gt hbehind), remainder_eq _ (Nat.ne_of_gt h.size_pos), bind,
    Except.bind]
  rw [AxisRef.coordinate, List.getD_eq_getElem?_getD, List.getElem?_eq_getElem hlt,
    Option.getD_some]

theorem refinePart_eq (h : a.Valid m) (hplace : place.length = m.axes.length) {index count : Nat}
    (hlt : index < count) (hfit : count * a.size m < wordBound) :
    refinePart m place (index, count) a
      = .ok (index * a.size m + a.coordinate m place, count * a.size m) := by
  have hindex : index * a.size m + a.coordinate m place < count * a.size m :=
    Sizes.mul_add_lt hlt (AxisRef.coordinate_lt h)
  simp only [refinePart, coordinate_eq h hplace, word_eq _ (Nat.lt_trans hindex hfit),
    word_eq _ hfit, bind, Except.bind, pure, Except.pure]

/-- The number of the part may overflow before the number of parts does. -/
theorem refinePart_overflows (h : a.Valid m) (hplace : place.length = m.axes.length)
    (index : Nat) {count : Nat} (hfit : wordBound ≤ count * a.size m) :
    ∃ context, refinePart m place (index, count) a = .error (.overflow context) := by
  simp only [refinePart, coordinate_eq h hplace, word_overflows _ hfit, bind, Except.bind]
  by_cases hindex : index * a.size m + a.coordinate m place < wordBound
  · exact ⟨_, by rw [word_eq _ hindex]⟩
  · exact ⟨_, by rw [word_overflows _ (Nat.not_lt.1 hindex)]⟩

theorem foldlM_refinePart_eq (hl : AllValid m l) (hplace : place.length = m.axes.length)
    {index count : Nat} (hlt : index < count) (hfit : count * totalSize m l < wordBound) :
    l.foldlM (refinePart m place) (index, count)
      = .ok (index * totalSize m l + partitionIndex m place l, count * totalSize m l) := by
  induction l generalizing index count with
  | nil => simp [pure, Except.pure]
  | cons a rest ih =>
    rw [allValid_cons] at hl
    rw [totalSize_cons, ← Nat.mul_assoc] at hfit
    have hcount : count * a.size m < wordBound :=
      Nat.lt_of_le_of_lt (Nat.le_mul_of_pos_right _ (totalSize_pos hl.2)) hfit
    rw [List.foldlM_cons, refinePart_eq hl.1 hplace hlt hcount]
    refine (ih hl.2 (Sizes.mul_add_lt hlt (AxisRef.coordinate_lt hl.1)) hfit).trans ?_
    rw [totalSize_cons, partitionIndex_cons, Nat.add_mul, Nat.mul_assoc, Nat.mul_assoc,
      Nat.add_assoc]

theorem foldlM_refinePart_overflows (hl : AllValid m l) (hplace : place.length = m.axes.length)
    {index count : Nat} (hlt : index < count) (hcount : count < wordBound)
    (hfit : wordBound ≤ count * totalSize m l) :
    ∃ context, l.foldlM (refinePart m place) (index, count) = .error (.overflow context) := by
  induction l generalizing index count with
  | nil =>
    rw [totalSize_nil, Nat.mul_one] at hfit
    exact absurd hcount (Nat.not_lt.2 hfit)
  | cons a rest ih =>
    rw [allValid_cons] at hl
    rw [totalSize_cons, ← Nat.mul_assoc] at hfit
    rw [List.foldlM_cons]
    -- the first axis along which the parts become too many ends the run
    by_cases hnext : count * a.size m < wordBound
    · rw [refinePart_eq hl.1 hplace hlt hnext]
      exact ih hl.2 (Sizes.mul_add_lt hlt (AxisRef.coordinate_lt hl.1)) hnext hfit
    · obtain ⟨context, herror⟩ := refinePart_overflows hl.1 hplace index (Nat.not_lt.1 hnext)
      exact ⟨context, by rw [herror]; rfl⟩

/-- A partition along valid references has an answer if its parts can be counted. -/
theorem partition_eq (hl : AllValid m l) (hplace : place.length = m.axes.length)
    (hfit : totalSize m l < wordBound) :
    partition m place l = .ok (partitionIndex m place l, totalSize m l) := by
  rw [partition, foldlM_refinePart_eq hl hplace Nat.zero_lt_one (by simpa using hfit),
    Nat.zero_mul, Nat.zero_add, Nat.one_mul]

theorem partition_overflows (hl : AllValid m l) (hplace : place.length = m.axes.length)
    (hfit : wordBound ≤ totalSize m l) :
    ∃ context, partition m place l = .error (.overflow context) :=
  foldlM_refinePart_overflows hl hplace Nat.zero_lt_one (by decide) (by simpa using hfit)

end partition

section layout

/-- A part ends within its dimension. -/
theorem slice_eq {size count index : Nat} (hindex : index < count) (hsize : size < wordBound) :
    slice size count index = .ok (.ofPartition size count index) := by
  have hpos : 0 < count := Nat.zero_lt_of_lt hindex
  have hlt : ∀ k ≤ count, Slice.boundary size count k < wordBound := fun k hk =>
    calc Slice.boundary size count k
        ≤ Slice.boundary size count count := Slice.boundary_mono size count hk
      _ = size := Slice.boundary_count hpos
      _ < wordBound := hsize
  have hstart := hlt index (Nat.le_of_lt hindex)
  have hstop := hlt (index + 1) hindex
  rw [Slice.boundary_succ] at hstop
  unfold Slice.boundary at hstart hstop
  simp only [slice, quotient_eq _ (Nat.ne_of_gt hpos), remainder_eq _ (Nat.ne_of_gt hpos),
    word_eq _ hstart, word_eq _ hstop, bind, Except.bind, pure, Except.pure]
  rfl

theorem dimSlice_eq {size : Nat} (hl : AxisList.AllValid m l) (ha : AxisList.Apart m l)
    (hm : m.places < wordBound) (hsize : size < wordBound)
    (hplace : place.length = m.axes.length) :
    dimSlice m place size l = .ok (.ofPartition size (AxisList.totalSize m l)
      (AxisList.partitionIndex m place l)) := by
  have hfit := Nat.lt_of_le_of_lt (ha.totalSize_le_places hl) hm
  rw [dimSlice, partition_eq hl hplace hfit]
  exact slice_eq (AxisList.partitionIndex_lt hl) hsize

theorem shard_eq {index : Nat} (hs : s.Valid m) (hshape : ∀ size ∈ shape, size < wordBound)
    (hm : m.places < wordBound) (hindex : index < m.places) (hsigned : index < signedBound) :
    shard shape m s index = .ok (Layout.shardAt shape m s index) := by
  have hslices : (shape.zip s.dims).mapM (fun p => dimSlice m (m.coordinate index) p.1 p.2.axes)
      = .ok (Layout.slicesAt shape m s (m.coordinate index)) := by
    refine mapM_eq_ok fun p hp => ?_
    obtain ⟨hsize, hd⟩ := List.of_mem_zip hp
    obtain ⟨dim, hdim⟩ := List.mem_iff_getElem?.1 hd
    exact dimSlice_eq (hs.allValid_axes hdim) (hs.apart_axes hdim) hm (hshape _ hsize)
      (m.coordinate_length index)
  simp only [shard, hslices, Mesh.deviceId_eq hm hindex hsigned, bind, Except.bind, pure, Except.pure]
  rfl

/-- The checks change nothing, if the sizes of the tensor fit words. -/
theorem ofSharding_eq (m : Mesh) (s : TensorSharding)
    (hshape : ∀ size ∈ shape, size < wordBound) :
    ofSharding shape m s = Layout.ofSharding shape m s := by
  cases hs : s.validate m shape with
  | error e => simp [ofSharding, Layout.ofSharding, hs, bind, Except.bind]
  | ok =>
  cases hcount : m.deviceCount with
  | error e => simp [ofSharding, Layout.ofSharding, hs, hcount, bind, Except.bind]
  | ok count =>
  obtain ⟨rfl, hm⟩ := Mesh.deviceCount_eq_ok hcount
  rw [Layout.ofSharding_eq_ite hs hcount]
  cases hfit : Sizes.fit m.places 88 with
  | false =>
    simp [ofSharding, hs, hcount, hfit, bind, Except.bind, throw, throwThe, MonadExceptOf.throw]
  | true =>
    have hvalid := (TensorSharding.validate_eq_ok_iff.1 hs).2
    have hsigned := Layout.le_signedBound_of_fit hfit
    have hshards := mapM_eq_ok (l := List.range m.places) (f := shard shape m s)
      fun index hindex => by
        rw [List.mem_range] at hindex
        exact shard_eq hvalid hshape hm hindex (Nat.lt_of_lt_of_le hindex hsigned)
    simp [ofSharding, hs, hcount, hfit, hshards, bind, Except.bind, pure, Except.pure]

end layout

end Checked
end MeshSharding
