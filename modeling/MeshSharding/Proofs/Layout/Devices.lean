import MeshSharding.Proofs.Layout.Coincidence

/-! Layouts over two meshes. Layouts are compared device by device in row-major order, so the
devices of two meshes are compared by their numbers and not by their ids. This makes a difference
exactly if both meshes have as many devices, but not in the same order. -/
namespace MeshSharding

/-- Where no two elements share a key, each one is found by its key. -/
theorem find?_eq_some_of_nodup_keys {α κ : Type} [DecidableEq κ] {key : α → κ} {l : List α}
    (hn : (l.map key).Nodup) {x : α} (hx : x ∈ l) :
    l.find? (fun y => key y = key x) = some x := by
  cases hfind : l.find? fun y => key y = key x with
  | none =>
    have hnone := List.find?_eq_none.1 hfind x hx
    simp at hnone
  | some y =>
    have hkey : key y = key x := by simpa using List.find?_some hfind
    rw [List.inj_on_of_nodup_map hn (List.mem_of_find?_eq_some hfind) hx hkey]

theorem forall₂_map_range {α β : Type} {R : α → β → Prop} {f : Nat → α} {g : Nat → β} {p q : Nat} :
    List.Forall₂ R ((List.range p).map f) ((List.range q).map g)
      ↔ p = q ∧ ∀ i < p, R (f i) (g i) := by
  rw [List.forall₂_iff_get]
  simp only [List.length_map, List.length_range, List.get_eq_getElem, List.getElem_map,
    List.getElem_range]
  constructor
  · rintro ⟨rfl, h⟩
    exact ⟨rfl, fun i hi => h i hi hi⟩
  · rintro ⟨rfl, h⟩
    exact ⟨rfl, fun i hi _ => h i hi⟩

namespace Mesh

variable {m : Mesh} {index : Nat}

/-- The ids of the devices in row-major order. -/
def devices (m : Mesh) : List Int64 := (List.range m.places).map m.deviceAt

@[simp] theorem devices_length (m : Mesh) : m.devices.length = m.places := by simp [devices]

theorem mem_devices {device : Int64} :
    device ∈ m.devices ↔ ∃ index < m.places, m.deviceAt index = device := by
  simp [devices]

/-- Ids that a mesh is given are distinct, and others are numbers that fit a signed word. -/
theorem nodup_devices (h : m.places ≤ signedBound) : m.devices.Nodup := by
  cases hids : m.deviceIds with
  | some ids =>
    have hlength : ids.length = m.places := m.deviceIds_length ids hids
    have heq : m.devices = ids := by
      refine List.ext_getElem (by rw [devices_length, hlength]) fun i hi hi' => ?_
      simp [devices, deviceAt, hids, hi']
    exact heq ▸ m.deviceIds_nodup ids hids
  | none =>
    refine List.Nodup.map_on (fun i hi j hj heq => ?_) List.nodup_range
    have hvalue : ∀ k ∈ List.range m.places, (Int64.ofNat k).toInt = k := fun k hk =>
      Int64.toInt_ofNat_of_lt (Nat.lt_of_lt_of_le (List.mem_range.1 hk) h)
    simp only [deviceAt, hids] at heq
    have hint := congrArg Int64.toInt heq
    rw [hvalue i hi, hvalue j hj] at hint
    exact Int.ofNat_inj.1 hint

/-- All axes of the mesh, each one as a whole. -/
def references (m : Mesh) : List AxisRef := m.axes.map fun axis => .full axis.name

theorem axisSize?_of_mem {axis : MeshAxis} (h : axis ∈ m.axes) :
    m.axisSize? axis.name = some axis.size := by
  rw [axisSize?, find?_eq_some_of_nodup_keys m.names_nodup h, Option.map_some]

theorem size_of_mem {axis : MeshAxis} (h : axis ∈ m.axes) :
    (AxisRef.full axis.name).size m = axis.size := by
  rw [AxisRef.size_full, AxisRef.fullSize, show (AxisRef.full axis.name).name = axis.name from rfl,
    axisSize?_of_mem h, Option.getD_some]

theorem valid_of_mem {axis : MeshAxis} (h : axis ∈ m.axes) : (AxisRef.full axis.name).Valid m := by
  have hknown : m.axisSize? (AxisRef.full axis.name).name = some axis.size := axisSize?_of_mem h
  rw [AxisRef.Valid, AxisRef.validate, hknown]
  rfl

theorem allValid_references (m : Mesh) : AxisList.AllValid m m.references :=
  List.forall_mem_map.2 fun _ haxis => valid_of_mem haxis

/-- The axes have different names, so no two of them overlap. -/
theorem apart_references (m : Mesh) : AxisList.Apart m m.references := by
  intro name c
  rw [AxisList.coverage, references, List.countP_map]
  calc m.axes.countP ((AxisRef.covers m name c) ∘ fun axis => .full axis.name)
      ≤ m.axes.countP ((· == name) ∘ (·.name)) := by
        refine List.countP_mono_left fun axis _ h => ?_
        have hname : axis.name = name := (of_decide_eq_true h).1
        simp [hname]
    _ = (m.axes.map (·.name)).count name := List.countP_map.symm
    _ ≤ 1 := List.nodup_iff_count_le_one.1 m.names_nodup name

theorem totalSize_references (m : Mesh) : AxisList.totalSize m m.references = m.places := by
  rw [AxisList.totalSize, places, references, List.map_map]
  exact congrArg Sizes.product (List.map_congr_left fun axis haxis => size_of_mem haxis)

/-- A whole axis has the stride of the axes behind it. -/
theorem stride_of_append {front back : List MeshAxis} {axis : MeshAxis}
    (h : m.axes = front ++ axis :: back) :
    (AxisRef.full axis.name).stride m = Sizes.product (back.map (·.size)) := by
  have hmem : axis ∈ m.axes := by simp [h]
  have hplace : (AxisRef.full axis.name).place m = front.length := by
    obtain ⟨other, hother, hname, -⟩ := (valid_of_mem hmem).getElem?_place
    have hlt : front.length < (m.axes.map (·.name)).length := by simp [h]
    refine ((List.getElem?_inj hlt m.names_nodup).1 ?_).symm
    rw [List.getElem?_map, List.getElem?_map, hother, Option.map_some, hname, h]
    simp [show (AxisRef.full axis.name).name = axis.name from rfl]
  have hfull : 0 < (AxisRef.full axis.name).fullSize m := AxisRef.fullSize_pos _ m
  rw [AxisRef.stride, hplace, AxisRef.nextPreSize, AxisRef.preSize_full, AxisRef.size_full,
    Nat.one_mul, Nat.div_self hfull, Nat.mul_one, behind, h]
  simp

/-- Along all axes from some place on, the devices count up to the size of those axes. -/
theorem partOf_of_append {front back : List MeshAxis} (h : m.axes = front ++ back) (index : Nat) :
    AxisList.partOf m (back.map fun axis => .full axis.name) index
      = index % Sizes.product (back.map (·.size)) := by
  induction back generalizing front with
  | nil => simp [AxisList.partOf, Nat.mod_one]
  | cons axis back ih =>
    have hmem : axis ∈ m.axes := by simp [h]
    have hback : m.axes = (front ++ [axis]) ++ back := by simp [h]
    have hsize : AxisList.totalSize m (back.map fun axis => .full axis.name)
        = Sizes.product (back.map (·.size)) := by
      rw [AxisList.totalSize, List.map_map]
      refine congrArg Sizes.product (List.map_congr_left fun other hother => size_of_mem ?_)
      simp [h, hother]
    rw [List.map_cons, AxisList.partOf_cons, (valid_of_mem hmem).coordinate_eq,
      stride_of_append h, size_of_mem hmem, hsize, ih hback,
      List.map_cons, Sizes.product_cons, Nat.mul_comm axis.size, Nat.mod_mul, Nat.add_comm,
      Nat.mul_comm (Sizes.product _)]

/-- Along all axes each device has its own part. -/
theorem partOf_references {index : Nat} (h : index < m.places) :
    AxisList.partOf m m.references index = index :=
  (partOf_of_append (List.nil_append _).symm index).trans (Nat.mod_eq_of_lt h)

end Mesh

namespace Layout

variable {m n : Mesh} {shape shape' : Shape} {s t : TensorSharding} {a b : Layout} {index : Nat}

/-- On each device both layouts hold the same slices of a tensor of the same shape. -/
structure SameOnDevices (a b : Layout) : Prop where
  shape : a.shape = b.shape
  devices (device : Int64) :
    (a.shardForDevice device).isSome = (b.shardForDevice device).isSome
  slices {device : Int64} {x y : Shard} : a.shardForDevice device = some x →
    b.shardForDevice device = some y → x.slices = y.slices

theorem ofSharding_eq_ok (h : ofSharding shape m s = .ok a) : s.validate m shape = .ok () ∧
    Sizes.fit m.places 88 = true ∧ a = ⟨shape, (List.range m.places).map (shardAt shape m s)⟩ := by
  cases hs : s.validate m shape with
  | error e => simp [ofSharding, hs, bind, Except.bind] at h
  | ok =>
    cases hcount : m.deviceCount with
    | error e => simp [ofSharding, hs, hcount, bind, Except.bind] at h
    | ok count =>
      obtain ⟨rfl, -⟩ := Mesh.deviceCount_eq_ok hcount
      rw [ofSharding_eq_ite hs hcount] at h
      split at h
      · rename_i hfit
        exact ⟨rfl, hfit, (Except.ok.inj h).symm⟩
      · cases h

theorem map_device_shards (h : ofSharding shape m s = .ok a) :
    a.shards.map (·.device) = m.devices := by
  obtain ⟨-, -, rfl⟩ := ofSharding_eq_ok h
  rw [List.map_map]
  rfl

theorem le_signedBound_of_fit {count : Nat} (h : Sizes.fit count 88 = true) :
    count ≤ signedBound := by
  have hlt : count * 88 < signedBound := of_decide_eq_true h
  omega

/-- The device with a number holds the shard with that number. -/
theorem shardForDevice_deviceAt (h : ofSharding shape m s = .ok a) (hindex : index < m.places) :
    a.shardForDevice (m.deviceAt index) = some (shardAt shape m s index) := by
  have hdevices := map_device_shards h
  obtain ⟨-, hfit, rfl⟩ := ofSharding_eq_ok h
  have hnodup := hdevices ▸ m.nodup_devices (le_signedBound_of_fit hfit)
  exact find?_eq_some_of_nodup_keys hnodup
    (List.mem_map.2 ⟨index, List.mem_range.2 hindex, rfl⟩)

theorem isSome_shardForDevice_iff (h : ofSharding shape m s = .ok a) {device : Int64} :
    (a.shardForDevice device).isSome = true ↔ device ∈ m.devices := by
  rw [← map_device_shards h, shardForDevice, List.find?_isSome]
  simp

/-- Only the devices of the meshes tell layouts from one another. -/
theorem sameOnDevices_iff (ha : ofSharding shape m s = .ok a) (hb : ofSharding shape' n t = .ok b) :
    a.SameOnDevices b ↔ a.shape = b.shape ∧ m.devices ⊆ n.devices ∧ n.devices ⊆ m.devices ∧
      ∀ device ∈ m.devices,
        (a.shardForDevice device).map (·.slices) = (b.shardForDevice device).map (·.slices) := by
  constructor
  · intro h
    have hmem : ∀ device, device ∈ m.devices ↔ device ∈ n.devices := fun device => by
      rw [← isSome_shardForDevice_iff ha, ← isSome_shardForDevice_iff hb, h.devices]
    refine ⟨h.shape, fun d => (hmem d).1, fun d => (hmem d).2, fun device hdevice => ?_⟩
    obtain ⟨x, hx⟩ := Option.isSome_iff_exists.1 ((isSome_shardForDevice_iff ha).2 hdevice)
    obtain ⟨y, hy⟩ :=
      Option.isSome_iff_exists.1 ((isSome_shardForDevice_iff hb).2 ((hmem device).1 hdevice))
    rw [hx, hy, Option.map_some, Option.map_some, h.slices hx hy]
  · rintro ⟨hshape, hmn, hnm, hslices⟩
    refine ⟨hshape, fun device => ?_, fun {device x y} hx hy => ?_⟩
    · rw [Bool.eq_iff_iff, isSome_shardForDevice_iff ha, isSome_shardForDevice_iff hb]
      exact ⟨@hmn device, @hnm device⟩
    · have hdevice := (isSome_shardForDevice_iff ha).1 (Option.isSome_of_eq_some hx)
      simpa [hx, hy] using hslices device hdevice

theorem hasSameShards_iff_slices (ha : ofSharding shape m s = .ok a)
    (hb : ofSharding shape' n t = .ok b) : a.hasSameShards b = true ↔ a.shape = b.shape ∧
      m.places = n.places ∧ ∀ index < m.places,
        (shardAt shape m s index).slices = (shardAt shape' n t index).slices := by
  obtain ⟨-, -, rfl⟩ := ofSharding_eq_ok ha
  obtain ⟨-, -, rfl⟩ := ofSharding_eq_ok hb
  simp only [hasSameShards, List.length_map, List.length_range, decide_eq_true_eq]
  refine and_congr_right fun _ => and_congr_right fun hplaces => ?_
  rw [← hplaces, List.zip_map', List.all_map, List.all_eq_true]
  simp only [List.mem_range, Function.comp_apply, decide_eq_true_eq]

/-- Layouts over any two meshes are compared by the numbers of the devices. -/
theorem hasSameShards_iff_forall₂ (ha : ofSharding shape m s = .ok a)
    (hb : ofSharding shape' n t = .ok b) : a.hasSameShards b = true ↔ a.shape = b.shape ∧
      List.Forall₂ (fun d e => (a.shardForDevice d).map (·.slices)
        = (b.shardForDevice e).map (·.slices)) m.devices n.devices := by
  rw [hasSameShards_iff_slices ha hb, Mesh.devices, Mesh.devices, forall₂_map_range]
  refine and_congr_right fun _ => and_congr_right fun hplaces => forall₂_congr fun i hi => ?_
  rw [shardForDevice_deviceAt ha hi, shardForDevice_deviceAt hb (hplaces ▸ hi), Option.map_some,
    Option.map_some, Option.some_inj]

/-- The order of the devices makes no difference between meshes that share it. -/
theorem hasSameShards_iff_sameOnDevices (ha : ofSharding shape m s = .ok a)
    (hb : ofSharding shape' n t = .ok b) (h : m.places = n.places → m.devices = n.devices) :
    a.hasSameShards b = true ↔ a.SameOnDevices b := by
  rw [hasSameShards_iff_forall₂ ha hb, sameOnDevices_iff ha hb]
  refine and_congr_right fun _ => ?_
  constructor
  · intro hforall
    have hdevices := h (by simpa using hforall.length_eq)
    rw [← hdevices] at hforall ⊢
    exact ⟨List.Subset.refl _, List.Subset.refl _, List.forall₂_same.1 hforall⟩
  · rintro ⟨hmn, hnm, hslices⟩
    have hnodup : ∀ {k : Mesh}, Sizes.fit k.places 88 = true → k.devices.Nodup :=
      fun hfit => Mesh.nodup_devices (le_signedBound_of_fit hfit)
    have hle := (hnodup (ofSharding_eq_ok ha).2.1).subperm hmn |>.length_le
    have hge := (hnodup (ofSharding_eq_ok hb).2.1).subperm hnm |>.length_le
    rw [Mesh.devices_length, Mesh.devices_length] at hle hge
    rw [← h (Nat.le_antisymm hle hge)]
    exact List.forall₂_same.2 hslices

/-- One dimension with as many elements as devices, sharded along all axes. -/
def spread (m : Mesh) : TensorSharding := .ofDims "mesh" [.ofAxes m.references true]

theorem validate_spread (m : Mesh) (size : Nat) : (spread m).validate m [size] = .ok () := by
  refine TensorSharding.validate_eq_ok_iff.2 ⟨rfl, ?_⟩
  have hused : (spread m).usedAxes = m.references := by
    simp [TensorSharding.usedAxes, TensorSharding.dimAxes, spread, TensorSharding.ofDims,
      DimSharding.ofAxes]
  rw [TensorSharding.Valid, hused]
  exact ⟨m.allValid_references, m.apart_references⟩

theorem ofSharding_spread (h : Sizes.fit m.places 88 = true) : ofSharding [m.places] m (spread m)
    = .ok ⟨[m.places], (List.range m.places).map (shardAt [m.places] m (spread m))⟩ := by
  refine ofSharding_eq (validate_spread m _) ?_ h
  have hle := le_signedBound_of_fit h
  have hlt : m.places < wordBound := Nat.lt_of_le_of_lt hle (by decide)
  exact if_pos hlt

/-- Each device holds the element with its number. -/
theorem slices_spread {index : Nat} (h : index < m.places) :
    (shardAt [m.places] m (spread m) index).slices = [⟨index, index + 1⟩] := by
  have hpart : AxisList.partitionIndex m (m.coordinate index) m.references = index :=
    Mesh.partOf_references h
  simp only [shardAt, slicesAt, spread, TensorSharding.ofDims, DimSharding.ofAxes,
    List.zip_cons_cons, List.zip_nil_left, List.map_cons, List.map_nil, m.totalSize_references,
    hpart]
  rw [Slice.ofPartition, Nat.div_self m.places_pos, Nat.mod_self]
  simp

/-- If each device holds an element of its own, the order of the devices makes a difference. -/
theorem devices_eq_of_sameOnDevices (hm : Sizes.fit m.places 88 = true)
    (hplaces : m.places = n.places)
    (h : ∀ (shape shape' : Shape) (s t : TensorSharding) (a b : Layout),
      ofSharding shape m s = .ok a → ofSharding shape' n t = .ok b →
        a.hasSameShards b = true → a.SameOnDevices b) : m.devices = n.devices := by
  have ha := ofSharding_spread hm
  have hb := ofSharding_spread (hplaces ▸ hm)
  have hsame := h _ _ _ _ _ _ ha hb <| (hasSameShards_iff_slices ha hb).2
    ⟨congrArg (List.cons · []) hplaces, hplaces, fun i hi => by
      rw [slices_spread hi, slices_spread (hplaces ▸ hi)]⟩
  rw [Mesh.devices, Mesh.devices, ← hplaces]
  refine List.map_congr_left fun i hi => ?_
  rw [List.mem_range] at hi
  have hx := shardForDevice_deviceAt ha hi
  have hmem : m.deviceAt i ∈ n.devices := by
    rw [← isSome_shardForDevice_iff hb, ← hsame.devices, hx, Option.isSome_some]
  obtain ⟨j, hj, hdevice⟩ := Mesh.mem_devices.1 hmem
  have hy := shardForDevice_deviceAt hb hj
  rw [hdevice] at hy
  have hslices := hsame.slices hx hy
  rw [slices_spread hi, slices_spread hj] at hslices
  rw [← hdevice, show i = j by simpa using hslices]

/-- Layouts over two meshes are compared by the numbers of the devices: they have the same shards
if devices of one number hold the same slices. So it is devices of one id that hold the same
slices, for all layouts over both meshes, exactly if the meshes have their devices in the same
order, or do not have as many devices or have too many for any layout. -/
theorem hasSameShards_iff_same_numbers (m n : Mesh) :
    (∀ (shape shape' : Shape) (s t : TensorSharding) (a b : Layout),
      ofSharding shape m s = .ok a → ofSharding shape' n t = .ok b →
        (a.hasSameShards b = true ↔ a.shape = b.shape ∧
          List.Forall₂ (fun d e => (a.shardForDevice d).map (·.slices)
            = (b.shardForDevice e).map (·.slices)) m.devices n.devices)) ∧
    ((∀ (shape shape' : Shape) (s t : TensorSharding) (a b : Layout),
      ofSharding shape m s = .ok a → ofSharding shape' n t = .ok b →
        (a.hasSameShards b = true ↔ a.SameOnDevices b)) ↔
      (Sizes.fit m.places 88 = true → m.places = n.places → m.devices = n.devices)) := by
  refine ⟨fun _ _ _ _ _ _ ha hb => hasSameShards_iff_forall₂ ha hb, fun h hm hplaces => ?_,
    fun h _ _ _ _ _ _ ha hb => ?_⟩
  · exact devices_eq_of_sameOnDevices hm hplaces fun shape shape' s t a b ha hb =>
      (h shape shape' s t a b ha hb).1
  · exact hasSameShards_iff_sameOnDevices ha hb (h (ofSharding_eq_ok ha).2.1)

/-- Devices that are listed in the opposite order hold other slices, but the same by number. With
the axes and the ids transposed they hold the same slices, but not by number. -/
theorem not_hasSameShards_iff_sameOnDevices :
    let s := TensorSharding.ofDims "mesh" [.ofAxes [.full "x"] true]
    let m := Mesh.grid 2 2 (by decide) (by decide)
    let opposite : Mesh := { Mesh.grid 2 2 (by decide) (by decide) with
      deviceIds := some [3, 2, 1, 0]
      deviceIds_length := by rintro _ ⟨rfl⟩; rfl
      deviceIds_nodup := by rintro _ ⟨rfl⟩; decide }
    let transposed : Mesh :=
      { axes := [⟨"y", 2, by decide, by decide⟩, ⟨"x", 2, by decide, by decide⟩]
        deviceIds := some [0, 2, 1, 3]
        names_nodup := by decide
        deviceIds_length := by rintro _ ⟨rfl⟩; rfl
        deviceIds_nodup := by rintro _ ⟨rfl⟩; decide }
    ∃ a b c, ofSharding [4] m s = .ok a ∧ ofSharding [4] opposite s = .ok b ∧
      ofSharding [4] transposed s = .ok c ∧
      a.hasSameShards b = true ∧ ¬ a.SameOnDevices b ∧
      a.hasSameShards c = false ∧ a.SameOnDevices c := by
  intro s m opposite transposed
  have ha : ofSharding [4] m s = .ok _ := rfl
  have hb : ofSharding [4] opposite s = .ok _ := rfl
  have hc : ofSharding [4] transposed s = .ok _ := rfl
  refine ⟨_, _, _, ha, hb, hc, by decide, fun h => ?_, by decide, (sameOnDevices_iff ha hc).2 ?_⟩
  · have hslices := @SameOnDevices.slices _ _ h 0 _ _ rfl rfl
    revert hslices
    decide
  · have hlisted : m.devices = [0, 1, 2, 3] := rfl
    refine ⟨rfl, by decide, by decide, ?_⟩
    rw [hlisted]
    simp only [List.forall_mem_cons]
    exact ⟨rfl, rfl, rfl, rfl, nofun⟩

end Layout
end MeshSharding
