import MeshSharding.Resharding.Plan
import MeshSharding.Sharding.Validity

/-! Synthesis of the collectives that lead from one sharding of a tensor to another. -/
namespace MeshSharding
namespace Resharding

/-- The atoms that leave dimension `dim`, such that those of the first move are last. -/
def leaving (moves : List Move) (dim : Nat) : List AxisRef :=
  (moves.reverse.filter fun move => move.source = dim).flatMap (·.axes)

/-- The order of the atoms of a source dimension in which all that leaves it is a suffix
when its turn comes. -/
def aligned (p : Plan) : List (List AxisRef) :=
  p.dims.mapIdx fun dim d => d.kept ++ d.gathered ++ leaving p.moves dim

def alignDim (m : Mesh) (axes : List AxisRef) (d : DimSharding) : DimSharding :=
  .ofAxes (AxisList.mergeAdjacent m axes) d.closed

/-- A permute that brings the source into the order of `aligned`, if it is not. -/
def alignment (p : Plan) (source : TensorSharding) (atoms : List (List AxisRef))
    (m : Mesh) : List Collective :=
  if (List.zipWith (AxisList.equivalent m) (aligned p) atoms).all id then []
  else [.permute { source with dims := List.zipWith (alignDim m) (aligned p) source.dims }]

def touches (move : Move) (dim : Nat) : Bool := move.source = dim ∨ move.target = dim

def clashes (batch : List Move) (move : Move) : Bool :=
  batch.any fun other => touches other move.source ∨ touches other move.target

/-- Cuts the moves into runs in which no dimension occurs twice. -/
def batchesFrom (batch : List Move) : List Move → List (List Move)
  | [] => if batch.isEmpty then [] else [batch]
  | move :: rest =>
    if clashes batch move then batch :: batchesFrom [move] rest
    else batchesFrom (batch ++ [move]) rest

def exchanges (p : Plan) (m : Mesh) : List Collective :=
  (batchesFrom [] p.moves).map fun batch =>
    .allToAll (batch.map fun move => { move with axes := AxisList.mergeAdjacent m move.axes })

/-- A dimension that slices behind what it gathers, and an axis that is gathered and
sliced, need the gather first. -/
def gathersFirst (p : Plan) (m : Mesh) : Bool :=
  let gathered := p.dims.flatMap (·.gathered)
  (p.dims.any fun d => !d.gathered.isEmpty && !d.sliced.isEmpty)
    || (p.dims.flatMap (·.sliced)).any fun a => AxisList.overlapsAny m a gathered

def gatherAndSlice (p : Plan) (m : Mesh) : List Collective :=
  let gather := Collective.allGather (p.dims.map fun d => AxisList.mergeAdjacent m d.gathered)
  let slice := Collective.allSlice (p.dims.map fun d => AxisList.mergeAdjacent m d.sliced)
  let both := if gathersFirst p m then [gather, slice] else [slice, gather]
  both.filter fun c => !c.isEmpty

def collectives (p : Plan) (source : TensorSharding) (atoms : List (List AxisRef))
    (m : Mesh) : List Collective :=
  alignment p source atoms m ++ exchanges p m ++ gatherAndSlice p m

/-- Collectives over the atoms of both shardings. -/
def synthesize (source target : TensorSharding) (m : Mesh) : Except Error (List Collective) := do
  let cut ← AxisList.atomize m
    (source.dims.map (·.axes) ++ target.dims.map (·.axes))
  let atoms := cut.lists.take source.rank
  let task := Task.ofAtoms cut.opaqueAxes atoms (cut.lists.drop source.rank)
  return collectives (plan task) source atoms m

/-- Collectives that lead from `source` to a sharding that places data like `target`.
Shardings with as many shards along every dimension need a single permute. -/
def reshard (source target : TensorSharding) (m : Mesh) : Except Error (List Collective) :=
  if source.meshName ≠ target.meshName then
    .error (.unsupportedReshard (.meshes source.meshName target.meshName))
  else if source.rank ≠ target.rank then
    .error (.unsupportedReshard (.ranks source.rank target.rank))
  else if !AxisList.equivalent m source.unreduced target.unreduced then
    .error (.unsupportedReshard (.unreduced source target))
  else if source.hasSameLayout target m then .ok []
  else if source.shardedSizes m = target.shardedSizes m then .ok [.permute target]
  else synthesize source target m

end Resharding
end MeshSharding
