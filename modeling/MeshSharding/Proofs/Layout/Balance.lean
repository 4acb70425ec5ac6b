import MeshSharding.Proofs.Layout.Spread
import MeshSharding.Proofs.Resharding.Synthesis

/-! The balance of a layout. The parts of a dimension follow one another and are of nearly one
length, and the devices are spread evenly over the parts, and so over the elements of the
tensor. -/
namespace MeshSharding
namespace Slice

variable {size count : Nat}

/-- The slice has the index in it. -/
def Holds (s : Slice) (x : Nat) : Prop := s.start ≤ x ∧ x < s.stop

instance (s : Slice) (x : Nat) : Decidable (s.Holds x) :=
  inferInstanceAs (Decidable (s.start ≤ x ∧ x < s.stop))

/-- The slices with the numbers below `count` follow one another from 0 to the size of a
dimension, and their lengths differ by at most one. -/
structure Tiles (size count : Nat) (slices : Nat → Slice) : Prop where
  first : (slices 0).start = 0
  next : ∀ k, k + 1 < count → (slices (k + 1)).start = (slices k).stop
  last : (slices (count - 1)).stop = size
  start_le_stop : ∀ k < count, (slices k).start ≤ (slices k).stop
  length_le : ∀ j < count, ∀ k < count, (slices j).length ≤ (slices k).length + 1

/-- Where the part with number `index` of a dimension begins. -/
def boundary (size count index : Nat) : Nat := index * (size / count) + min index (size % count)

@[simp] theorem boundary_zero : boundary size count 0 = 0 := by simp [boundary]

theorem boundary_count (h : 0 < count) : boundary size count count = size := by
  rw [boundary, Nat.min_eq_right (Nat.le_of_lt (Nat.mod_lt _ h)), Nat.div_add_mod]

theorem boundary_succ (size count index : Nat) : boundary size count (index + 1)
    = boundary size count index + (size / count + if index < size % count then 1 else 0) := by
  unfold boundary
  rw [Nat.succ_mul]
  split <;> omega

theorem boundary_mono (size count : Nat) : Monotone (boundary size count) :=
  monotone_nat_of_le_succ fun index => by
    rw [boundary_succ]
    exact Nat.le_add_right ..

/-- A part ends where the next one begins. -/
theorem ofPartition_eq (size count index : Nat) :
    ofPartition size count index
      = ⟨boundary size count index, boundary size count (index + 1)⟩ := by
  rw [boundary_succ]
  rfl

theorem length_ofPartition_eq (size count index : Nat) : (ofPartition size count index).length
    = size / count + if index < size % count then 1 else 0 := by
  rw [ofPartition_eq, length, boundary_succ, Nat.add_sub_cancel_left]

theorem tiles_ofPartition (size : Nat) (h : 0 < count) :
    Tiles size count (ofPartition size count) where
  first := by rw [ofPartition_eq, boundary_zero]
  next k _ := by rw [ofPartition_eq, ofPartition_eq]
  last := by rw [ofPartition_eq, Nat.sub_add_cancel h, boundary_count h]
  start_le_stop k _ := by
    rw [ofPartition_eq]
    exact boundary_mono size count (Nat.le_succ k)
  length_le j _ k _ := by
    rw [length_ofPartition_eq, length_ofPartition_eq]
    split <;> split <;> omega

theorem exists_between {f : Nat → Nat} {n x : Nat} (hzero : f 0 = 0) (h : x < f n) :
    ∃ k < n, f k ≤ x ∧ x < f (k + 1) := by
  induction n with
  | zero => omega
  | succ n ih =>
    by_cases hlt : x < f n
    · obtain ⟨k, hk, hbetween⟩ := ih hlt
      exact ⟨k, by omega, hbetween⟩
    · exact ⟨n, Nat.lt_succ_self n, by omega, h⟩

/-- Every index of a dimension is in exactly one of its parts. -/
theorem exists_holds_ofPartition_iff (hcount : 0 < count) {x : Nat} (h : x < size) :
    ∃ k < count, ∀ j, (ofPartition size count j).Holds x ↔ j = k := by
  have hlast : x < boundary size count count := by rwa [boundary_count hcount]
  obtain ⟨k, hk, hle, hlt⟩ := exists_between boundary_zero hlast
  refine ⟨k, hk, fun j => ?_⟩
  rw [ofPartition_eq, Holds]
  constructor
  · rintro ⟨hlej, hltj⟩
    rcases Nat.lt_trichotomy j k with hjk | rfl | hkj
    · have hmono := boundary_mono size count (Nat.succ_le_of_lt hjk)
      exact absurd hltj (Nat.not_lt.2 (hmono.trans hle))
    · rfl
    · have hmono := boundary_mono size count (Nat.succ_le_of_lt hkj)
      exact absurd hlt (Nat.not_lt.2 (hmono.trans hlej))
  · rintro rfl
    exact ⟨hle, hlt⟩

end Slice

namespace Shard

/-- The part of each dimension that the shard is. -/
def parts (m : Mesh) (s : TensorSharding) (shard : Shard) : List Nat :=
  s.dims.map fun d => AxisList.partitionIndex m shard.place d.axes

/-- The shard has the element with the indices in it. -/
def Holds (shard : Shard) (element : List Nat) : Prop :=
  List.Forall₂ Slice.Holds shard.slices element

instance (shard : Shard) (element : List Nat) : Decidable (shard.Holds element) :=
  inferInstanceAs (Decidable (List.Forall₂ Slice.Holds shard.slices element))

end Shard

namespace TensorSharding

open AxisList

variable {m : Mesh} {s : TensorSharding}

theorem Valid.graded_dimAxes (hs : s.Valid m) (ht : s.Transparent m) : Graded m s.dimAxes := by
  have hsublist : s.dimAxes.Sublist s.usedAxes := by
    rw [usedAxes, List.append_assoc]
    exact List.sublist_append_left ..
  exact graded_of_opaqueAxes_eq_nil hs.allValid_dims.allValid_dimAxes (hs.2.sublist hsublist)
    (ht.opaqueAxes_eq_nil hs)

theorem map_totalSize_dims (m : Mesh) (s : TensorSharding) :
    (s.dims.map (·.axes)).map (totalSize m) = s.shardedSizes m := List.map_map

theorem ValidDims.shardedSizes_pos (hs : s.ValidDims m) : ∀ n ∈ s.shardedSizes m, 0 < n :=
  List.forall_mem_map.2 fun d hd => totalSize_pos (hs d hd)

end TensorSharding

namespace Layout

open AxisList

variable {m : Mesh} {s : TensorSharding} {shape : Shape}

theorem parts_shardAt (index : Nat) : (shardAt shape m s index).parts m s
    = partsOf m (s.dims.map (·.axes)) index := by
  rw [partsOf, List.map_map]
  rfl

/-- The slices of a shard are those of its parts. -/
theorem slices_shardAt (index : Nat) : (shardAt shape m s index).slices
    = ((shape.zip (s.shardedSizes m)).zip ((shardAt shape m s index).parts m s)).map
        fun p => .ofPartition p.1.1 p.1.2 p.2 := by
  simp only [shardAt, slicesAt, Shard.parts, TensorSharding.shardedSizes]
  generalize s.dims = dims
  induction dims generalizing shape with
  | nil => simp
  | cons d dims ih => cases shape <;> simp_all

theorem holds_shardAt_iff (index : Nat) (element : List Nat) :
    (shardAt shape m s index).Holds element ↔
      List.Forall₂ Slice.Holds ((shape.zip (s.dims.map (·.axes))).map fun p =>
        .ofPartition p.1 (totalSize m p.2) (partOf m p.2 index)) element := by
  rw [List.zip_map_right, List.map_map]
  rfl

/-- The shards that an element is in are those that are certain parts. -/
theorem exists_parts_of_element {ls : List (List AxisRef)} (hl : AllValid m ls.flatten)
    {element : List Nat} (hlength : ls.length = shape.length)
    (h : List.Forall₂ (· < ·) element shape) :
    ∃ parts, List.Forall₂ (· < ·) parts (ls.map (totalSize m)) ∧
      ∀ index, List.Forall₂ Slice.Holds ((shape.zip ls).map fun p =>
        .ofPartition p.1 (totalSize m p.2) (partOf m p.2 index)) element ↔
          partsOf m ls index = parts := by
  induction h generalizing ls with
  | nil =>
    obtain rfl := List.length_eq_zero_iff.1 hlength
    exact ⟨[], .nil, fun index => by simp [partsOf]⟩
  | @cons x size xs sizes hx _ ih =>
    obtain ⟨l, rest, rfl⟩ := List.exists_cons_of_length_eq_add_one hlength
    rw [List.flatten_cons, allValid_append] at hl
    obtain ⟨k, hk, hfirst⟩ := Slice.exists_holds_ofPartition_iff (totalSize_pos hl.1) hx
    obtain ⟨ks, hks, hrest⟩ := ih hl.2 (by simpa using hlength)
    refine ⟨k :: ks, .cons hk hks, fun index => ?_⟩
    rw [List.zip_cons_cons, List.map_cons, List.forall₂_cons, hfirst, hrest]
    exact List.cons_eq_cons.symm

/-- The shards of a tensor are slices from tilings of its dimensions, every combination of parts
is had by the same number of them, and so is every element. -/
structure Balanced (m : Mesh) (s : TensorSharding) (shape : Shape) (shards : List Shard) :
    Prop where
  tiles : List.Forall₂ (fun size count => Slice.Tiles size count (.ofPartition size count))
    shape (s.shardedSizes m)
  parts_lt : ∀ shard ∈ shards, List.Forall₂ (· < ·) (shard.parts m s) (s.shardedSizes m)
  slices_eq : ∀ shard ∈ shards, shard.slices
    = ((shape.zip (s.shardedSizes m)).zip (shard.parts m s)).map
        fun p => .ofPartition p.1.1 p.1.2 p.2
  dvd_length : Sizes.product (s.shardedSizes m) ∣ shards.length
  countP_parts : ∀ parts, List.Forall₂ (· < ·) parts (s.shardedSizes m) →
    shards.countP (fun shard => shard.parts m s = parts)
      = shards.length / Sizes.product (s.shardedSizes m)
  countP_holds : ∀ element, List.Forall₂ (· < ·) element shape →
    shards.countP (fun shard => shard.Holds element)
      = shards.length / Sizes.product (s.shardedSizes m)

/-- Every combination of parts is held by the same number of devices. -/
theorem count_partsOf_dims (hs : s.Valid m) (ht : s.Transparent m) {parts : List Nat}
    (h : List.Forall₂ (· < ·) parts (s.shardedSizes m)) :
    Nat.count (fun index => partsOf m (s.dims.map (·.axes)) index = parts) m.places
      * Sizes.product (s.shardedSizes m) = m.places := by
  have hvalid : AllValid m s.dimAxes := hs.allValid_dims.allValid_dimAxes
  have hgraded := hs.graded_dimAxes ht
  rw [← TensorSharding.flatten_dims] at hvalid hgraded
  rw [← TensorSharding.map_totalSize_dims] at h ⊢
  have hcount := count_partsOf (P := fun _ => True) hvalid hgraded (fun _ _ _ _ _ => Iff.rfl) h
  simpa using hcount

theorem balanced_shardAt (hrank : s.rank = shape.length) (hs : s.Valid m) (ht : s.Transparent m) :
    Balanced m s shape ((List.range m.places).map (shardAt shape m s)) := by
  have hpos := hs.allValid_dims.shardedSizes_pos
  have hdims : AllValid m (s.dims.map (·.axes)).flatten := by
    rw [TensorSharding.flatten_dims]
    exact hs.allValid_dims.allValid_dimAxes
  have hcountP : ∀ (P : Shard → Prop) [DecidablePred P],
      ((List.range m.places).map (shardAt shape m s)).countP (fun shard => P shard)
        = Nat.count (fun index => P (shardAt shape m s index)) m.places := by
    intro P _
    rw [List.countP_map, ← countP_range]
    rfl
  have hparts : ∀ parts, List.Forall₂ (· < ·) parts (s.shardedSizes m) →
      Nat.count (fun index => partsOf m (s.dims.map (·.axes)) index = parts) m.places
        = m.places / Sizes.product (s.shardedSizes m) := fun parts hlt =>
    (Nat.div_eq_of_eq_mul_left (Sizes.product_pos hpos)
      (count_partsOf_dims hs ht hlt).symm).symm
  constructor
  case tiles =>
    refine List.forall₂_iff_zip.2 ⟨?_, ?_⟩
    · rw [TensorSharding.shardedSizes, List.length_map]
      exact hrank.symm
    · exact fun hmem => Slice.tiles_ofPartition _ (hpos _ (List.of_mem_zip hmem).2)
  case parts_lt =>
    refine List.forall_mem_map.2 fun index _ => ?_
    rw [parts_shardAt, ← TensorSharding.map_totalSize_dims]
    exact partsOf_lt hdims index
  case slices_eq => exact List.forall_mem_map.2 fun index _ => slices_shardAt index
  case dvd_length =>
    rw [List.length_map, List.length_range]
    have hfirst := partsOf_lt hdims 0
    rw [TensorSharding.map_totalSize_dims] at hfirst
    exact Dvd.intro_left _ (count_partsOf_dims hs ht hfirst)
  case countP_parts =>
    intro parts hlt
    rw [hcountP, List.length_map, List.length_range]
    simp only [parts_shardAt]
    exact hparts parts hlt
  case countP_holds =>
    intro element hlt
    obtain ⟨parts, hlt', hiff⟩ :=
      exists_parts_of_element hdims ((List.length_map ..).trans hrank) hlt
    rw [TensorSharding.map_totalSize_dims] at hlt'
    rw [hcountP, List.length_map, List.length_range]
    simp only [holds_shardAt_iff, hiff]
    exact hparts parts hlt'

/-- The layout of a valid sharding exists if there is memory for its shards. -/
theorem ofSharding_eq_ite {count : Nat} (hs : s.validate m shape = .ok ())
    (hcount : m.deviceCount = .ok count) : ofSharding shape m s
      = if Sizes.fit count 88 then .ok ⟨shape, (List.range count).map (shardAt shape m s)⟩
        else .error (.fault .outOfMemory) := by
  cases hfit : Sizes.fit count 88 <;>
    simp [ofSharding, hs, hcount, hfit, bind, Except.bind, pure, Except.pure, throw, throwThe,
      MonadExceptOf.throw]

/-- The layout of a valid sharding, whose axes have a common subdivision, is balanced. It exists
if there is memory for its shards. -/
theorem balanced_ofSharding (m : Mesh) (count : Nat) (hcount : m.deviceCount = .ok count)
    (s : TensorSharding) (shape : Shape) (hs : s.validate m shape = .ok ())
    (ht : s.Transparent m) :
    let shards := (List.range count).map (shardAt shape m s)
    shards.length = count ∧ Balanced m s shape shards ∧
      ofSharding shape m s
        = if Sizes.fit count 88 then .ok ⟨shape, shards⟩ else .error (.fault .outOfMemory) := by
  obtain ⟨hrank, hvalid⟩ := TensorSharding.validate_eq_ok_iff.1 hs
  obtain ⟨rfl, -⟩ := Mesh.deviceCount_eq_ok hcount
  exact ⟨by simp, balanced_shardAt hrank hvalid ht, ofSharding_eq_ite hs hcount⟩

/-- Parts of windows of an axis over both dimensions, in an order other than that of the axis. -/
theorem balanced_ofSharding_grid :
    let m := Mesh.grid 4 2 (by decide) (by decide)
    let s := TensorSharding.ofDims "mesh"
      [.ofAxes [.sub "x" 2 2, .full "y"] true, .ofAxes [.sub "x" 1 2] true]
    let shards := (List.range 8).map (shardAt [6, 3] m s)
    shards.length = 8 ∧ Balanced m s [6, 3] shards ∧
      ofSharding [6, 3] m s
        = if Sizes.fit 8 88 then .ok ⟨[6, 3], shards⟩ else .error (.fault .outOfMemory) :=
  balanced_ofSharding _ 8 rfl _ [6, 3] (by decide) ⟨_, rfl, by decide⟩

end Layout
end MeshSharding
