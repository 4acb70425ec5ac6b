import MeshSharding.Sharding.Validity

/-! Layouts: the slices of a tensor that each device of a mesh holds. -/
namespace MeshSharding
namespace Slice

def length (s : Slice) : Nat := s.stop - s.start

def isEmpty (s : Slice) : Bool := s.start = s.stop

def contains (a b : Slice) : Bool := a.start ≤ b.start ∧ b.stop ≤ a.stop

/-- The part with number `index` of a dimension cut into `count` consecutive parts, the
first ones of which are longer by one if the dimension is not divided evenly. -/
def ofPartition (size count index : Nat) : Slice :=
  let start := index * (size / count) + min index (size % count)
  ⟨start, start + (size / count + if index < size % count then 1 else 0)⟩

end Slice

namespace AxisRef

/-- The coordinate along the reference of the device at a mesh coordinate. -/
def coordinate (a : AxisRef) (m : Mesh) (place : List Nat) : Nat :=
  place.getD (a.place m) 0 / (a.fullSize m / a.nextPreSize m) % a.size m

end AxisRef

namespace AxisList

/-- The number of the part that a device holds of a dimension sharded along the axes. -/
def partitionIndex (m : Mesh) (place : List Nat) (axes : List AxisRef) : Nat :=
  axes.foldl (fun index a => index * a.size m + a.coordinate m place) 0

end AxisList

/-- What one device holds of a tensor. -/
structure Shard where
  index : Nat
  device : Int64
  place : List Nat
  slices : List Slice
deriving DecidableEq

namespace Shard

def shape (s : Shard) : Shape := s.slices.map Slice.length

def elementCount (s : Shard) : Nat := Sizes.product s.shape

/-- Every element of the second shard is in the first one. -/
def contains (a b : Shard) : Bool :=
  a.slices.length = b.slices.length ∧ (a.slices.zip b.slices).all fun p => p.1.contains p.2

end Shard

/-- The shards of a tensor, in row-major order of the devices. -/
structure Layout where
  shape : Shape
  shards : List Shard
deriving DecidableEq

namespace Layout

def slicesAt (shape : Shape) (m : Mesh) (s : TensorSharding) (place : List Nat) :
    List Slice :=
  (shape.zip s.dims).map fun p =>
    .ofPartition p.1 (AxisList.totalSize m p.2.axes)
      (AxisList.partitionIndex m place p.2.axes)

def shardAt (shape : Shape) (m : Mesh) (s : TensorSharding) (index : Nat) : Shard :=
  let place := m.coordinate index
  ⟨index, m.deviceAt index, place, slicesAt shape m s place⟩

/-- The shards of all devices, where there is memory for them; a shard takes 88 bytes. -/
def ofSharding (shape : Shape) (m : Mesh) (s : TensorSharding) : Except Error Layout := do
  s.validate m shape
  let count ← m.deviceCount
  if !Sizes.fit count 88 then throw (.fault .outOfMemory)
  return ⟨shape, (List.range count).map (shardAt shape m s)⟩

def shardForDevice (l : Layout) (device : Int64) : Option Shard :=
  l.shards.find? fun s => s.device = device

/-- Both layouts give every device, in row-major order, the same slices. -/
def hasSameShards (a b : Layout) : Bool :=
  a.shape = b.shape ∧ a.shards.length = b.shards.length
    ∧ (a.shards.zip b.shards).all fun p => p.1.slices = p.2.slices

/-- What each collective can do to the shard of a device: a gather lets it grow, a slice
lets it shrink, and the others keep its number of elements. -/
def canBecome (c : Collective) (before after : Shard) : Bool :=
  match c with
  | .allGather _ => after.contains before
  | .allSlice _ => before.contains after
  | .allToAll _ => before.elementCount = after.elementCount
  | .permute _ => before.elementCount = after.elementCount

def checkTransition (c : Collective) (before after : Layout) : Except Error Unit :=
  if before.shape ≠ after.shape ∨ before.shards.length ≠ after.shards.length then
    .error (.invalidCollective c .otherTensor)
  else
    match (before.shards.zip after.shards).find? fun p => !canBecome c p.1 p.2 with
    | some p => .error (.invalidCollective c (.impossible p.1.device p.1.slices p.2.slices))
    | none => .ok ()

end Layout
end MeshSharding
