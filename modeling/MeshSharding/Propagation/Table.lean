import MeshSharding.AxisList.Prefix

/-! The current sharding of every value of a program. It changes only by appending minor
axes to open dimensions. -/
namespace MeshSharding

structure TableEntry where
  rank : Nat
  sharding : Option TensorSharding
deriving DecidableEq

abbrev ShardingTable := List TableEntry

namespace ShardingTable

/-- No value of the given ranks is sharded. -/
def ofRanks (ranks : List Nat) : ShardingTable := ranks.map fun rank => ⟨rank, none⟩

def get (t : ShardingTable) (value : Nat) : Option TensorSharding :=
  t[value]?.bind (·.sharding)

def put (t : ShardingTable) (value : Nat) (s : Option TensorSharding) : ShardingTable :=
  t.modify value fun entry => { entry with sharding := s }

def set (t : ShardingTable) (value : Nat) (s : Option TensorSharding) :
    Except Error ShardingTable :=
  if value < t.length then .ok (t.put value s) else .error (.fault .indexOutOfRange)

end ShardingTable

namespace TensorSharding

/-- Refines an open dimension to axes that have its own ones as a proper major part, if
the sharding does not use the new ones elsewhere. -/
def refineDim (s : TensorSharding) (m : Mesh) (dim : Nat) (axes : List AxisRef) :
    Option TensorSharding := do
  let current ← s.dims[dim]?
  if current.closed || !AxisList.isPrefix m current.axes axes
      || AxisList.equivalent m current.axes axes then none
  else
    let added ← AxisList.stripPrefix? m axes current.axes
    if added.any fun a => AxisList.overlapsAny m a (s.axesOutside dim) then none
    else some (s.modifyDim dim fun d => { d with axes := AxisList.mergeAdjacent m axes })

end TensorSharding

namespace ShardingTable

/-- Refines a dimension of a value. A value without a sharding counts as fully open over
the mesh; one over another mesh is not changed. -/
def refine (t : ShardingTable) (value dim : Nat) (axes : List AxisRef) (meshName : String)
    (m : Mesh) : Option ShardingTable := do
  let entry ← t[value]?
  let s := entry.sharding.getD (.fullyOpen meshName entry.rank)
  if s.meshName ≠ meshName then none
  else
    let refined ← s.refineDim m dim axes
    return t.put value (some refined)

/-- Refines a dimension of a value for whose sharding there is memory; a dimension takes
48 bytes. -/
def checkedRefine (t : ShardingTable) (value dim : Nat) (axes : List AxisRef)
    (meshName : String) (m : Mesh) : Except Error (Option ShardingTable) :=
  if t[value]?.all fun entry => entry.sharding.isSome || Sizes.fit entry.rank 48 then
    .ok (t.refine value dim axes meshName m)
  else .error (.fault .outOfMemory)

end ShardingTable
end MeshSharding
