import MeshSharding.AxisList.Subdivision
import MeshSharding.Sharding.Validity

/-! What each collective does to the sharding of the tensor it is applied to. -/
namespace MeshSharding
namespace Collective

def fail {α : Type} (c : Collective) (defect : CollectiveDefect) : Except Error α :=
  .error (.invalidCollective c defect)

def checkRank (c : Collective) (rank : Nat) (s : TensorSharding) : Except Error Unit :=
  if rank = s.rank then .ok () else c.fail (.rank s.rank rank)

/-- Takes a suffix off the axes of dimension `dim`. -/
def takeOff (c : Collective) (m : Mesh) (dim : Nat) (axes suffix : List AxisRef) :
    Except Error (List AxisRef) := do
  match ← AxisList.removeSuffix m axes suffix with
  | some rest => return rest
  | none => c.fail (.notSuffix suffix axes dim)

def gatherDims (c : Collective) (m : Mesh) : Nat → List DimSharding → List (List AxisRef) →
    Except Error (List DimSharding)
  | dim, d :: ds, axes :: rest => do
    let kept ← c.takeOff m dim d.axes axes
    let ds ← gatherDims c m (dim + 1) ds rest
    return { d with axes := kept } :: ds
  | _, ds, _ => .ok ds

/-- Axes to slice along are valid and not in use. -/
def checkUnused (c : Collective) (m : Mesh) (s : TensorSharding) (used : List AxisRef) :
    List AxisRef → Except Error Unit
  | [] => .ok ()
  | a :: rest => do
    a.validate m
    if AxisList.overlapsAny m a used then c.fail (.axisInUse a s)
    else checkUnused c m s (used ++ [a]) rest

def sliceDim (m : Mesh) (d : DimSharding) (axes : List AxisRef) : DimSharding :=
  .ofAxes (AxisList.mergeAdjacent m (d.axes ++ axes)) d.closed

def applyMove (c : Collective) (m : Mesh) (s : TensorSharding) (move : Move) :
    Except Error TensorSharding := do
  match s.dims[move.source]?, s.dims[move.target]? with
  | some source, some target =>
    if move.source = move.target then c.fail (.moveDims move s.rank)
    else if move.axes.isEmpty then c.fail (.emptyMove move)
    else
      let kept ← c.takeOff m move.source source.axes move.axes
      let moved := AxisList.mergeAdjacent m (target.axes ++ move.axes)
      return (s.modifyDim move.source fun d => { d with axes := kept }).modifyDim move.target
        fun d => { d with axes := moved }
  | _, _ => c.fail (.moveDims move s.rank)

/-- The sharding that the collective leads to. -/
def apply (c : Collective) (s : TensorSharding) (m : Mesh) : Except Error TensorSharding :=
  match c with
  | .allGather axes => do
    c.checkRank axes.length s
    let dims ← c.gatherDims m 0 s.dims axes
    return { s with dims := dims }
  | .allSlice axes => do
    c.checkRank axes.length s
    c.checkUnused m s (s.dimAxes ++ s.unreduced) axes.flatten
    return { s with
      dims := List.zipWith (sliceDim m) s.dims axes
      replicated := s.replicated.filter fun a => !AxisList.overlapsAny m a axes.flatten }
  | .allToAll moves => moves.foldlM (c.applyMove m) s
  | .permute out =>
    if out.meshName ≠ s.meshName then c.fail (.meshChange s.meshName out.meshName)
    else if out.rank ≠ s.rank then c.fail (.rank s.rank out.rank)
    else if out.shardedSizes m ≠ s.shardedSizes m then c.fail (.shardCounts out s)
    else if !AxisList.equivalent m out.unreduced s.unreduced then c.fail .unreducedChange
    else .ok out

/-- The sharding that the collectives lead to one after the other. -/
def applyAll (cs : List Collective) (s : TensorSharding) (m : Mesh) :
    Except Error TensorSharding :=
  cs.foldlM (fun s c => c.apply s m) s

end Collective
end MeshSharding
