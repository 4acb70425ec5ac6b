import MeshSharding.Proofs.AxisList.Places
import MeshSharding.Proofs.Layout.Balance
import MeshSharding.Proofs.Layout.Transition
import MeshSharding.Proofs.Resharding.Outcome

/-! When layouts coincide. The parts that the devices hold tell the merged axes of a dimension
from minor to major, so two shardings have the same layout exactly if they make the same shards
of every tensor. -/
namespace MeshSharding
namespace AxisRef

variable {m : Mesh} {a b : AxisRef} {j : Nat}

/-- The coordinates along a reference are those of the devices in steps of its stride. -/
theorem Valid.coordinate_stride_mul (h : a.Valid m) (hj : j < a.size m) :
    a.coordinate m (m.coordinate (a.stride m * j)) = j := by
  rw [h.coordinate_eq, Nat.mul_div_cancel_left _ h.stride_pos, Nat.mod_eq_of_lt hj]

/-- The first device with a coordinate above 0 is a stride away. -/
theorem Valid.stride_le_of_coordinate (h : a.Valid m) {index : Nat}
    (hc : a.coordinate m (m.coordinate index) ≠ 0) : a.stride m ≤ index := by
  by_contra hlt
  rw [h.coordinate_eq, Nat.div_eq_of_lt (Nat.not_le.1 hlt), Nat.zero_mod] at hc
  exact hc rfl

theorem Valid.coordinate_eq_zero_of_dvd (h : a.Valid m) {index : Nat}
    (hd : a.stride m * a.size m ∣ index) : a.coordinate m (m.coordinate index) = 0 := by
  obtain ⟨n, rfl⟩ := hd
  rw [h.coordinate_eq, Nat.mul_assoc, Nat.mul_div_cancel_left _ h.stride_pos, Nat.mul_mod_right]

/-- In steps of a stride the coordinates along references above and below stay 0. -/
theorem Valid.coordinate_stride_mul_of_above (ha : a.Valid m) (hb : b.Valid m)
    (h : Above m b a ∨ Above m a b) (hj : j < a.size m) :
    b.coordinate m (m.coordinate (a.stride m * j)) = 0 := by
  rcases h with h | h
  · by_contra hc
    have hle := hb.stride_le_of_coordinate hc
    have hlt := Nat.mul_lt_mul_of_pos_left hj ha.stride_pos
    have hdvd := Nat.le_of_dvd hb.stride_pos h
    omega
  · exact hb.coordinate_eq_zero_of_dvd (h.mul_right j)

theorem Valid.stride_mul_lt_places (h : a.Valid m) (hj : j < a.size m) :
    a.stride m * j < m.places :=
  calc a.stride m * j < a.stride m * a.size m := Nat.mul_lt_mul_of_pos_left hj h.stride_pos
    _ ≤ m.places := Nat.le_of_dvd m.places_pos h.cycle_dvd_places

end AxisRef

namespace AxisList

variable {m : Mesh} {a b : AxisRef} {l r : List AxisRef} {index j : Nat}

theorem partOf_snoc (l : List AxisRef) (a : AxisRef) (index : Nat) : partOf m (l ++ [a]) index
    = partOf m l index * a.size m + a.coordinate m (m.coordinate index) := by
  rw [partOf, partitionIndex_append, partitionIndex_cons, totalSize_cons]
  simp [partOf]

theorem partOf_eq_zero (h : ∀ a ∈ l, a.coordinate m (m.coordinate index) = 0) :
    partOf m l index = 0 := by
  induction l with
  | nil => rfl
  | cons a rest ih =>
    rw [List.forall_mem_cons] at h
    rw [partOf_cons, h.1, ih h.2, Nat.zero_mul]

/-- The first device holds the first part. -/
theorem partOf_zero (hl : AllValid m l) : partOf m l 0 = 0 :=
  partOf_eq_zero fun _ ha => (hl _ ha).coordinate_eq_zero_of_dvd (Nat.dvd_zero _)

/-- The references are merged, of size above 1, and one above the other, so that the devices tell
them. -/
structure Legible (m : Mesh) (l : List AxisRef) : Prop where
  valid : AllValid m l
  graded : Graded m l
  separated : Separated m l
  large : ∀ a ∈ l, 1 < a.size m

namespace Legible

theorem valid_last (h : Legible m (l ++ [a])) : a.Valid m := h.valid a (by simp)

theorem large_last (h : Legible m (l ++ [a])) : 1 < a.size m := h.large a (by simp)

theorem graded_last (h : Legible m (l ++ [a])) (hb : b ∈ l) :
    AxisRef.Above m b a ∨ AxisRef.Above m a b :=
  (List.pairwise_append.1 h.graded).2.2 b hb a List.mem_cons_self

theorem front (h : Legible m (l ++ [a])) : Legible m l where
  valid := (allValid_append.1 h.valid).1
  graded := (List.pairwise_append.1 h.graded).1
  separated := h.separated.left_of_append
  large x hx := h.large x (List.mem_append_left _ hx)

end Legible

/-- In steps of the stride of the last reference the devices hold the first parts. -/
theorem partOf_stride_mul (h : Legible m (l ++ [a])) (hj : j < a.size m) :
    partOf m (l ++ [a]) (a.stride m * j) = j := by
  have hlow : partOf m l (a.stride m * j) = 0 := partOf_eq_zero fun b hb =>
    h.valid_last.coordinate_stride_mul_of_above (h.front.valid b hb) (h.graded_last hb) hj
  rw [partOf_snoc, hlow, Nat.zero_mul, Nat.zero_add, h.valid_last.coordinate_stride_mul hj]

/-- The last digit of the number 1 is 1. -/
theorem coordinate_eq_one_of_partOf (hs : 1 < a.size m) (h : partOf m (l ++ [a]) index = 1) :
    a.coordinate m (m.coordinate index) = 1 := by
  rw [partOf_snoc] at h
  cases hp : partOf m l index with
  | zero => rwa [hp, Nat.zero_mul, Nat.zero_add] at h
  | succ n =>
    rw [hp, Nat.succ_mul] at h
    omega

/-- A device a stride away from the first one tells the last stride of any list. -/
theorem stride_le_of_partOf (hl : Legible m (l ++ [a])) (hr : Legible m (r ++ [b]))
    (h : ∀ i < m.places, partOf m (l ++ [a]) i = partOf m (r ++ [b]) i) :
    b.stride m ≤ a.stride m := by
  have hpart := partOf_stride_mul hl hl.large_last
  rw [h _ (hl.valid_last.stride_mul_lt_places hl.large_last), Nat.mul_one] at hpart
  have hcoord := coordinate_eq_one_of_partOf hr.large_last hpart
  exact hr.valid_last.stride_le_of_coordinate (hcoord ▸ Nat.one_ne_zero)

/-- Of two references with one end, the shorter one begins later, so not at the start of the
axis. -/
theorem one_lt_preSize_of_size_lt (ha : a.Valid m) (hb : b.Valid m)
    (hnext : a.nextPreSize m = b.nextPreSize m) (hlt : a.size m < b.size m) : 1 < a.preSize := by
  have hends : a.preSize * a.size m = b.preSize * b.size m := hnext
  have hle := Nat.le_mul_of_pos_left (b.size m) hb.preSize_pos
  have hpos := ha.preSize_pos
  by_contra hone
  have hpre : a.preSize = 1 := by omega
  rw [hpre, Nat.one_mul] at hends
  omega

/-- If the coordinate along a reference is 1 where those along another one begin anew, the first
reference is right in front of the other one. -/
theorem canMerge_of_coordinate_eq_one (ha : a.Valid m) (hb : b.Valid m) (hs : 1 < a.size m)
    (hpre : 1 < b.preSize) (hab : AxisRef.Above m a b ∨ AxisRef.Above m b a)
    (h : a.coordinate m (m.coordinate (b.stride m * b.size m)) = 1) : a.canMerge b m = true := by
  refine ha.canMerge_of_stride_eq hb hs hpre (Nat.le_antisymm ?_ ?_)
  · exact ha.stride_le_of_coordinate (h ▸ Nat.one_ne_zero)
  · rcases hab with habove | habove
    · exact Nat.le_of_dvd ha.stride_pos habove
    · rw [ha.coordinate_eq_zero_of_dvd (habove.mul_right _)] at h
      cases h

/-- A last reference that were shorter could be merged with the one before it. -/
theorem size_le_of_partOf (hl : Legible m (l ++ [a])) (hr : Legible m (r ++ [b]))
    (hstride : a.stride m = b.stride m) (hnext : a.nextPreSize m = b.nextPreSize m)
    (h : ∀ i < m.places, partOf m (l ++ [a]) i = partOf m (r ++ [b]) i) :
    b.size m ≤ a.size m := by
  by_contra hlt
  rw [Nat.not_le] at hlt
  have ha := hl.valid_last
  have hb := hr.valid_last
  -- where the coordinates along `a` begin anew, those along `b` go on
  have hpart := partOf_stride_mul hr hlt
  rw [← h _ (hb.stride_mul_lt_places hlt), ← hstride, partOf_snoc,
    ha.coordinate_eq_zero_of_dvd (Nat.dvd_refl _), Nat.add_zero] at hpart
  have hcarry := Nat.eq_of_mul_eq_mul_right ha.size_pos (hpart.trans (Nat.one_mul _).symm)
  rcases List.eq_nil_or_concat l with rfl | ⟨front, c, rfl⟩
  · cases hcarry
  rw [List.concat_eq_append] at *
  have hc := hl.front.large_last
  have hca := canMerge_of_coordinate_eq_one hl.front.valid_last ha hc
    (one_lt_preSize_of_size_lt ha hb hnext hlt) (hl.graded_last (by simp))
    (coordinate_eq_one_of_partOf hc hcarry)
  have hsep := hl.separated
  rw [List.append_assoc] at hsep
  exact (List.isChain_append_cons_cons.1 hsep).2.1 hca

/-- The last references of lists with the same parts are the same. -/
theorem last_eq_of_partOf_eq (hl : Legible m (l ++ [a])) (hr : Legible m (r ++ [b]))
    (h : ∀ i < m.places, partOf m (l ++ [a]) i = partOf m (r ++ [b]) i) : a = b := by
  have hback : ∀ i < m.places, partOf m (r ++ [b]) i = partOf m (l ++ [a]) i :=
    fun i hi => (h i hi).symm
  have hstride : a.stride m = b.stride m :=
    Nat.le_antisymm (stride_le_of_partOf hr hl hback) (stride_le_of_partOf hl hr h)
  have hb := hr.valid_last
  obtain ⟨hname, hnext⟩ := hl.valid_last.ends_eq hb hl.large_last hr.large_last hstride
  have hsize : a.size m = b.size m :=
    Nat.le_antisymm (size_le_of_partOf hr hl hstride.symm hnext.symm hback)
      (size_le_of_partOf hl hr hstride hnext h)
  have hends : a.preSize * a.size m = b.preSize * b.size m := hnext
  rw [hsize] at hends
  exact hl.valid_last.eq_of_bounds hb hname (Nat.eq_of_mul_eq_mul_right hb.size_pos hends) hnext

/-- A list that has references has a second part. -/
theorem not_partOf_eq_zero (h : Legible m (l ++ [a])) :
    ¬ ∀ i < m.places, partOf m (l ++ [a]) i = 0 := by
  intro hzero
  have hpart := partOf_stride_mul h h.large_last
  rw [hzero _ (h.valid_last.stride_mul_lt_places h.large_last)] at hpart
  cases hpart

/-- Merged lists of graded references are known by the parts that the devices hold. -/
theorem eq_of_partOf_eq (hl : Legible m l) (hr : Legible m r)
    (h : ∀ i < m.places, partOf m l i = partOf m r i) : l = r := by
  -- from the minor end, where each list has the digits that change first
  induction l using List.reverseRecOn generalizing r with
  | nil =>
    rcases List.eq_nil_or_concat r with rfl | ⟨r, b, rfl⟩
    · rfl
    · rw [List.concat_eq_append] at *
      exact absurd (fun i hi => (h i hi).symm) (not_partOf_eq_zero hr)
  | append_singleton l a ih =>
    rcases List.eq_nil_or_concat r with rfl | ⟨r, b, rfl⟩
    · exact absurd h (not_partOf_eq_zero hl)
    rw [List.concat_eq_append] at *
    obtain rfl := last_eq_of_partOf_eq hl hr h
    have hfront : ∀ i < m.places, partOf m l i = partOf m r i := by
      intro i hi
      have hsnoc := h i hi
      rw [partOf_snoc, partOf_snoc, Nat.add_right_cancel_iff] at hsnoc
      exact Nat.eq_of_mul_eq_mul_right hl.valid_last.size_pos hsnoc
    rw [ih hl.front hr.front hfront]

end AxisList

namespace Slice

/-- If a dimension is as long as the larger of two numbers of parts, the first part tells them
from one another. -/
theorem eq_of_ofPartition_zero {a b : Nat} (ha : 0 < a) (hb : 0 < b)
    (h : ofPartition (max a b) a 0 = ofPartition (max a b) b 0) : a = b := by
  have hfirst : ∀ {x y : Nat}, 0 < x → x ≤ y →
      (ofPartition y x 0).stop = (ofPartition y y 0).stop → x = y := by
    intro x y hx hle hstop
    have hy : 0 < y := Nat.lt_of_lt_of_le hx hle
    have hdiv := Nat.div_pos hle hx
    have hmod := Nat.div_add_mod y x
    simp only [ofPartition, Nat.zero_mul, Nat.zero_min, Nat.zero_add, Nat.div_self hy,
      Nat.mod_self, Nat.lt_irrefl, if_false, Nat.add_zero] at hstop
    split at hstop
    · omega
    · rw [show y / x = 1 from hstop, Nat.mul_one] at hmod
      omega
  rcases Nat.le_total a b with hle | hle
  · rw [Nat.max_eq_right hle] at h
    exact hfirst ha hle (congrArg stop h)
  · rw [Nat.max_eq_left hle] at h
    exact (hfirst hb hle (congrArg stop h.symm)).symm

theorem start_ofPartition_self {size : Nat} (h : 0 < size) (index : Nat) :
    (ofPartition size size index).start = index := by
  simp [ofPartition, Nat.div_self h]

end Slice

namespace TensorSharding

open AxisList

variable {m : Mesh} {s t : TensorSharding} {dim : Nat} {d e : DimSharding}

theorem sameCores_of_hasSameLayout (hs : s.ValidDims m) (ht : t.ValidDims m)
    (h : s.hasSameLayout t m = true) : s.SameCores m t := by
  obtain ⟨hmesh, hrank, hu, hdims⟩ := hasSameLayout_iff.1 h
  exact ⟨hmesh, hrank, hu, fun dim d e hd he => core_eq_of_mergeAdjacent_eq
    (hs d (List.mem_of_getElem? hd)) (ht e (List.mem_of_getElem? he)) (hdims dim d e hd he)⟩

theorem SameCores.spells (h : s.SameCores m t) (hs : s.ValidDims m) (ht : t.ValidDims m) :
    Spells m t s.axesAt where
  axes _ e he := ht e (List.mem_of_getElem? he)
  atoms := hs.spells.atoms
  core dim e he := by
    obtain ⟨d, hd⟩ := exists_dim h.rank.symm he
    rw [axesAt_eq hd, h.dims dim d e hd he]

/-- The merged axes of a dimension are legible if the axes have a common subdivision. -/
theorem Valid.legible_core (hs : s.Valid m) (ht : s.Transparent m)
    (hd : s.dims[dim]? = some d) : Legible m (core m d.axes) := by
  have hv := hs.allValid_axes hd
  have hsub : d.axes ⊆ s.dimAxes := fun a ha =>
    List.mem_flatMap.2 ⟨d, List.mem_of_getElem? hd, ha⟩
  refine ⟨hv.core, graded_of_ladder hv.core (fun name c => ?_)
    ((within_boundaries s.dimAxes).subset hsub).core fun name =>
      not_mem_opaqueAxes_iff.1 (ht.opaqueAxes_eq_nil hs ▸ List.not_mem_nil),
    separated_core _, one_lt_size_of_mem_core⟩
  rw [coverage_core hv]
  exact hs.apart_axes hd name c

end TensorSharding

namespace Layout

open AxisList

variable {m : Mesh} {s t : TensorSharding} {shape : Shape} {count dim size : Nat}
  {d e : DimSharding}

theorem hasSameShards_iff : hasSameShards ⟨shape, (List.range count).map (shardAt shape m s)⟩
      ⟨shape, (List.range count).map (shardAt shape m t)⟩ = true ↔
    ∀ index < count, slicesAt shape m s (m.coordinate index)
      = slicesAt shape m t (m.coordinate index) := by
  simp [hasSameShards, List.zip_map', shardAt]

theorem getElem?_slicesAt (hsize : shape[dim]? = some size) (hd : s.dims[dim]? = some d)
    (index : Nat) : (slicesAt shape m s (m.coordinate index))[dim]?
      = some (.ofPartition size (totalSize m d.axes) (partOf m d.axes index)) := by
  have hzip : (shape.zip s.dims)[dim]? = some (size, d) :=
    List.getElem?_zip_eq_some.2 ⟨hsize, hd⟩
  rw [slicesAt, List.getElem?_map, hzip]
  rfl

/-- If every tensor has the same shards in both layouts, each dimension has the same merged axes
of size above 1. -/
theorem core_eq_of_hasSameShards (hs : s.Valid m) (ht : t.Valid m) (hst : s.Transparent m)
    (htt : t.Transparent m) (hsize : shape[dim]? = some size) (hd : s.dims[dim]? = some d)
    (he : t.dims[dim]? = some e) (hmax : size = max (totalSize m d.axes) (totalSize m e.axes))
    (h : ∀ index < m.places, slicesAt shape m s (m.coordinate index)
      = slicesAt shape m t (m.coordinate index)) :
    core m d.axes = core m e.axes := by
  have hvd := hs.allValid_axes hd
  have hve := ht.allValid_axes he
  have hslice : ∀ index < m.places,
      Slice.ofPartition size (totalSize m d.axes) (partOf m d.axes index)
        = .ofPartition size (totalSize m e.axes) (partOf m e.axes index) := by
    intro index hlt
    have heq := congrArg (·[dim]?) (h index hlt)
    simpa only [getElem?_slicesAt hsize hd, getElem?_slicesAt hsize he, Option.some_inj] using heq
  -- the first device tells the number of parts, and the number of parts the part of a device
  have hpos := totalSize_pos hvd
  have htotal : totalSize m d.axes = totalSize m e.axes := by
    have hfirst := hslice 0 m.places_pos
    rw [partOf_zero hvd, partOf_zero hve, hmax] at hfirst
    exact Slice.eq_of_ofPartition_zero hpos (totalSize_pos hve) hfirst
  rw [← htotal, Nat.max_self] at hmax
  have hpart : ∀ index < m.places,
      partOf m (core m d.axes) index = partOf m (core m e.axes) index := by
    intro index hlt
    have heq := congrArg Slice.start (hslice index hlt)
    rw [← htotal, hmax, Slice.start_ofPartition_self hpos, Slice.start_ofPartition_self hpos] at heq
    rw [partOf, partOf, partitionIndex_core hvd, partitionIndex_core hve]
    exact heq
  exact eq_of_partOf_eq (hs.legible_core hst hd) (ht.legible_core htt he) hpart

/-- The sizes that tell the axes of two shardings from one another. -/
def tellingShape (m : Mesh) (s t : TensorSharding) : Shape :=
  ((s.shardedSizes m).zip (t.shardedSizes m)).map fun p => max p.1 p.2

theorem sameCores_of_hasSameShards (hs : s.Valid m) (ht : t.Valid m) (hst : s.Transparent m)
    (htt : t.Transparent m) (hmesh : s.meshName = t.meshName) (hrank : s.rank = t.rank)
    (hu : mergeAdjacent m s.unreduced = mergeAdjacent m t.unreduced)
    (h : ∀ index < m.places, slicesAt (tellingShape m s t) m s (m.coordinate index)
      = slicesAt (tellingShape m s t) m t (m.coordinate index)) :
    s.SameCores m t := by
  refine ⟨hmesh, hrank, hu, fun dim d e hd he => ?_⟩
  refine core_eq_of_hasSameShards hs ht hst htt ?_ hd he rfl h
  have hzip : ((s.shardedSizes m).zip (t.shardedSizes m))[dim]?
      = some (totalSize m d.axes, totalSize m e.axes) :=
    List.getElem?_zip_eq_some.2 ⟨by simp [TensorSharding.shardedSizes, hd],
      by simp [TensorSharding.shardedSizes, he]⟩
  rw [tellingShape, List.getElem?_map, hzip]
  rfl

theorem tellingShape_le (hs : s.Valid m) (ht : t.Valid m) (hst : s.Transparent m)
    (htt : t.Transparent m) : ∀ size ∈ tellingShape m s t, size ≤ m.places := by
  have hle : ∀ {u : TensorSharding}, u.Valid m → u.Transparent m →
      ∀ size ∈ u.shardedSizes m, size ≤ m.places := by
    intro u hu hut
    refine List.forall_mem_map.2 fun d hd => Nat.le_of_dvd m.places_pos ?_
    obtain ⟨dim, hdim⟩ := List.mem_iff_getElem?.1 hd
    have hv := hu.allValid_axes hdim
    rw [← totalSize_core hv]
    exact totalSize_dvd_places hv.core (hu.legible_core hut hdim).graded
  refine List.forall_mem_map.2 fun p hp => ?_
  have hp := List.of_mem_zip (show (p.1, p.2) ∈ _ from hp)
  exact Nat.max_le.2 ⟨hle hs hst _ hp.1, hle ht htt _ hp.2⟩

/-- Where there is memory for layouts, two shardings have the same layout exactly if they make
the same shards of every tensor, on a mesh without axes of size 1. Otherwise they have none. -/
theorem hasSameLayout_iff_hasSameShards (m : Mesh) (count : Nat)
    (hcount : m.deviceCount = .ok count) (hm : m.NoUnitAxes) (s t : TensorSharding)
    (shape : Shape) (hs : s.validate m shape = .ok ()) (ht : t.validate m shape = .ok ())
    (hmesh : s.meshName = t.meshName)
    (hu : mergeAdjacent m s.unreduced = mergeAdjacent m t.unreduced)
    (hst : s.Transparent m) (htt : t.Transparent m) :
    if Sizes.fit count 88 then
      (s.hasSameLayout t m = true ↔ ∀ shape' : Shape, shape'.length = shape.length →
        (∀ size ∈ shape', size < wordBound) → ∃ before after,
          ofSharding shape' m s = .ok before ∧ ofSharding shape' m t = .ok after ∧
            before.hasSameShards after = true)
    else ∀ shape' : Shape, shape'.length = shape.length →
      ofSharding shape' m s = .error (.fault .outOfMemory) ∧
        ofSharding shape' m t = .error (.fault .outOfMemory) := by
  obtain ⟨hsr, hvs⟩ := TensorSharding.validate_eq_ok_iff.1 hs
  obtain ⟨htr, hvt⟩ := TensorSharding.validate_eq_ok_iff.1 ht
  obtain ⟨rfl, hbound⟩ := Mesh.deviceCount_eq_ok hcount
  have hlayout : ∀ {u : TensorSharding} {shape' : Shape}, u.rank = shape'.length → u.Valid m →
      ofSharding shape' m u = if Sizes.fit m.places 88
        then .ok ⟨shape', (List.range m.places).map (shardAt shape' m u)⟩
        else .error (.fault .outOfMemory) :=
    fun hr hv => ofSharding_eq_ite (TensorSharding.validate_eq_ok_iff.2 ⟨hr, hv⟩) hcount
  cases hfit : Sizes.fit m.places 88 with
  | false =>
    simp only [hfit, Bool.false_eq_true, if_false] at hlayout ⊢
    exact fun shape' hlength =>
      ⟨hlayout (hsr.trans hlength.symm) hvs, hlayout (htr.trans hlength.symm) hvt⟩
  | true =>
    simp only [hfit, if_true] at hlayout ⊢
    constructor
    · intro h shape' hlength _
      have hcores := TensorSharding.sameCores_of_hasSameLayout hvs.allValid_dims
        hvt.allValid_dims h
      exact ⟨_, _, hlayout (hsr.trans hlength.symm) hvs, hlayout (htr.trans hlength.symm) hvt,
        hasSameShards_of_spells hvs.spells (hcores.spells hvs.allValid_dims hvt.allValid_dims)
          (hsr.trans hlength.symm) (htr.trans hlength.symm)⟩
    · intro h
      have hlength : (tellingShape m s t).length = shape.length := by
        have hmin : min s.rank t.rank = shape.length := by omega
        simpa [tellingShape, TensorSharding.shardedSizes, TensorSharding.rank] using hmin
      obtain ⟨before, after, hbefore, hafter, hsame⟩ := h (tellingShape m s t) hlength
        fun size hsize => Nat.lt_of_le_of_lt (tellingShape_le hvs hvt hst htt size hsize) hbound
      rw [hlayout (hsr.trans hlength.symm) hvs] at hbefore
      rw [hlayout (htr.trans hlength.symm) hvt] at hafter
      cases hbefore
      cases hafter
      have hcores := sameCores_of_hasSameShards hvs hvt hst htt hmesh (hsr.trans htr.symm) hu
        (hasSameShards_iff.1 hsame)
      exact hcores.hasSameLayout hm hvs.allValid_dims hvt.allValid_dims

/-- Axes in one dimension, merged and in windows. -/
theorem hasSameLayout_iff_hasSameShards_grid :
    let m := Mesh.grid 4 2 (by decide) (by decide)
    let s := TensorSharding.ofDims "mesh"
      [.ofAxes [.full "y", .sub "x" 1 2, .sub "x" 2 2] true, .ofAxes [] true]
    let t := TensorSharding.ofDims "mesh"
      [.ofAxes [.full "y", .full "x"] false, .ofAxes [] true]
    s.hasSameLayout t m = true ↔
      ∀ shape' : Shape, shape'.length = 2 → (∀ size ∈ shape', size < wordBound) →
        ∃ before after, ofSharding shape' m s = .ok before ∧ ofSharding shape' m t = .ok after ∧
          before.hasSameShards after = true :=
  hasSameLayout_iff_hasSameShards (Mesh.grid 4 2 (by decide) (by decide)) 8 rfl
    (by simp [Mesh.NoUnitAxes, Mesh.grid]) _ _ [6, 3] (by decide) (by decide) rfl rfl
    ⟨_, rfl, by decide⟩ ⟨_, rfl, by decide⟩

/-- On a vast mesh shardings of one layout have no shards that could be the same. -/
theorem not_hasSameShards_vast :
    let m := Mesh.grid (2 ^ 57) 2 (by decide) (by decide)
    let s := TensorSharding.ofDims "mesh" [.ofAxes [.full "y"] true]
    m.deviceCount = .ok (2 ^ 58) ∧ m.NoUnitAxes ∧ s.validate m [4] = .ok () ∧
      s.Transparent m ∧ s.hasSameLayout s m = true ∧
      ¬ ∃ before after, ofSharding [4] m s = .ok before ∧ ofSharding [4] m s = .ok after ∧
        before.hasSameShards after = true := by
  refine ⟨by decide, by simp [Mesh.NoUnitAxes, Mesh.grid], by decide, ⟨_, rfl, by decide⟩,
    by decide, ?_⟩
  -- with 2 ^ 58 devices there is no memory for the shards
  rintro ⟨before, after, hbefore, _, _⟩
  have hfault : ofSharding [4] (Mesh.grid (2 ^ 57) 2 (by decide) (by decide))
      (.ofDims "mesh" [.ofAxes [.full "y"] true]) = .error (.fault .outOfMemory) := by rfl
  rw [hfault] at hbefore
  cases hbefore

end Layout
end MeshSharding
