import MeshSharding.AxisList

/-! Shardings over a mesh: how many shards they make, when they are valid, and when two
of them place data alike. -/
namespace MeshSharding
namespace TensorSharding

def shardedSizes (s : TensorSharding) (m : Mesh) : List Nat :=
  s.dims.map fun d => AxisList.totalSize m d.axes

/-- Merges the adjacent windows of every axis list. -/
def canonicalized (s : TensorSharding) (m : Mesh) : TensorSharding :=
  { s with
    dims := s.dims.map fun d => { d with axes := AxisList.mergeAdjacent m d.axes }
    replicated := AxisList.mergeAdjacent m s.replicated
    unreduced := AxisList.mergeAdjacent m s.unreduced }

/-- Both shardings place data on the same devices. -/
def hasSameLayout (s t : TensorSharding) (m : Mesh) : Bool :=
  s.meshName = t.meshName ∧ s.rank = t.rank
    ∧ AxisList.equivalent m s.unreduced t.unreduced
    ∧ (s.dims.zip t.dims).all fun p => AxisList.equivalent m p.1.axes p.2.axes

/-- Every reference is valid and none overlaps an earlier one. -/
def checkAxes (m : Mesh) (earlier : List AxisRef) : List AxisRef → Except Error Unit
  | [] => .ok ()
  | a :: rest => do
    a.validate m
    if earlier.any fun b => b.overlaps a m then .error (.axisReused a)
    else checkAxes m (earlier ++ [a]) rest

/-- A sharding fits a tensor of its rank if its references are valid and disjoint. -/
def validate (s : TensorSharding) (m : Mesh) (shape : Shape) : Except Error Unit :=
  if s.rank = shape.length then checkAxes m [] s.usedAxes
  else .error (.rank s.rank shape.length)

def checkDivisible (m : Mesh) : Nat → List DimSharding → Shape → Except Error Unit
  | dim, d :: ds, size :: sizes =>
    let shards := AxisList.totalSize m d.axes
    if shards = 0 then .error (.fault .divisionByZero)
    else if size % shards = 0 then checkDivisible m (dim + 1) ds sizes
    else .error (.indivisible dim size shards)
  | _, _, _ => .ok ()

/-- Every dimension is cut into shards of one size. -/
def validateDivisibility (s : TensorSharding) (m : Mesh) (shape : Shape) :
    Except Error Unit :=
  checkDivisible m 0 s.dims shape

end TensorSharding
end MeshSharding
