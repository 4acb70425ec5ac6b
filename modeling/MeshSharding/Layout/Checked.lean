import MeshSharding.Collective.Checked
import MeshSharding.Layout

/-! Layouts with a check in front of each step that has no value for some arguments, and of each
number that may not fit a word. -/
namespace MeshSharding
namespace Checked

/-- A number that has to fit a word. -/
def word (context : String) (n : Nat) : Except Error Nat :=
  if n < wordBound then .ok n else .error (.overflow context)

/-- The coordinate along the reference of the device at a mesh coordinate. -/
def coordinate (a : AxisRef) (m : Mesh) (place : List Nat) : Except Error Nat :=
  match m.axisIndex? a.name with
  | none => .error (.unknownAxis a.name)
  | some index => do
    let whole ← entry place index
    let behind ← quotient (a.fullSize m) (a.nextPreSize m)
    let upper ← quotient whole behind
    remainder upper (a.size m)

/-- Cuts each of a number of parts along one more axis, and follows the part of a device. -/
def refinePart (m : Mesh) (place : List Nat) (part : Nat × Nat) (a : AxisRef) :
    Except Error (Nat × Nat) := do
  let along ← coordinate a m place
  let index ← word s!"computing partition index for axis {a.text}" (part.1 * a.size m + along)
  let count ← word s!"computing partition count for axis {a.text}" (part.2 * a.size m)
  return (index, count)

/-- The number of the part that a device holds of a dimension sharded along the axes, and the
number of all parts. -/
def partition (m : Mesh) (place : List Nat) (axes : List AxisRef) : Except Error (Nat × Nat) :=
  axes.foldlM (refinePart m place) (0, 1)

/-- The part with number `index` of `count` parts of a dimension. -/
def slice (size count index : Nat) : Except Error Slice := do
  let length ← quotient size count
  let longer ← remainder size count
  let start ← word "computing shard-slice start index" (index * length + min index longer)
  let stop ← word "computing shard-slice end index"
    (start + (length + if index < longer then 1 else 0))
  return ⟨start, stop⟩

def dimSlice (m : Mesh) (place : List Nat) (size : Nat) (axes : List AxisRef) :
    Except Error Slice := do
  let part ← partition m place axes
  slice size part.2 part.1

def shard (shape : Shape) (m : Mesh) (s : TensorSharding) (index : Nat) : Except Error Shard := do
  let place := m.coordinate index
  let slices ← (shape.zip s.dims).mapM fun p => dimSlice m place p.1 p.2.axes
  match m.deviceId index with
  | some device => return ⟨index, device, place, slices⟩
  | none => .error (.overflow s!"converting device index {index} to a device ID")

/-- The shards of all devices, where there is memory for them. -/
def ofSharding (shape : Shape) (m : Mesh) (s : TensorSharding) : Except Error Layout := do
  s.validate m shape
  let count ← m.deviceCount
  if !Sizes.fit count 88 then throw (.fault .outOfMemory)
  let shards ← (List.range count).mapM (shard shape m s)
  return ⟨shape, shards⟩

end Checked
end MeshSharding
