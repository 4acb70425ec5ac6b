import MeshSharding.Collective.Apply

/-! Collectives with a check in front of each step that has no value for some arguments: quotients
and remainders, ranges of boundaries, and entries and parts of lists. -/
namespace MeshSharding
namespace Checked

def quotient (a b : Nat) : Except Error Nat :=
  if b = 0 then .error (.fault .divisionByZero) else .ok (a / b)

def remainder (a b : Nat) : Except Error Nat :=
  if b = 0 then .error (.fault .divisionByZero) else .ok (a % b)

/-- The numbers of a list from `low` up to `high`. -/
def range (l : List Nat) (low high : Nat) : Except Error (List Nat) :=
  if high < low then .error (.fault .reversedRange)
  else .ok (l.filter fun c => low ≤ c ∧ c ≤ high)

def entry {α : Type} (l : List α) (i : Nat) : Except Error α :=
  match l[i]? with
  | some x => .ok x
  | none => .error (.fault .indexOutOfRange)

/-- A list without its last `n` entries. -/
def front {α : Type} (l : List α) (n : Nat) : Except Error (List α) :=
  if l.length < n then .error (.fault .indexOutOfRange) else .ok (l.take (l.length - n))

/-- A window is divided by only once its parts are known to be positive. -/
def validate (a : AxisRef) (m : Mesh) : Except Error Unit :=
  match m.axisSize? a.name with
  | none => .error (.unknownAxis a.name)
  | some axisSize =>
    match a.window with
    | none => .ok ()
    | some w =>
      if 1 ≤ w.preSize ∧ 1 < w.size then do
        let rest ← remainder axisSize (w.preSize * w.size)
        if rest = 0 ∧ w.preSize * w.size ≤ axisSize ∧ ¬ (w.preSize = 1 ∧ w.size = axisSize) then
          return ()
        else .error (.invalidWindow a.name w axisSize)
      else .error (.invalidWindow a.name w axisSize)

section subdivision

open AxisList

/-- The boundaries of each axis that is referred to, by name. -/
def boundaryTable (m : Mesh) (all : List AxisRef) : List (String × List Nat) :=
  (Sorted.ofList (all.map (·.name))).map fun name => (name, boundaries m all name)

def boundariesOf (table : List (String × List Nat)) (name : String) : Except Error (List Nat) :=
  match Sorted.find? name table with
  | some bounds => .ok bounds
  | none => .error (.fault .indexOutOfRange)

/-- Whether some boundary does not divide the next one; the first such ends the search. -/
def anyOpaque : List (Nat × Nat) → Except Error Bool
  | [] => .ok false
  | (low, high) :: rest => do
    let excess ← remainder high low
    if excess ≠ 0 then return true else anyOpaque rest

def opaqueNames : List (String × List Nat) → Except Error (List String)
  | [] => .ok []
  | (name, bounds) :: rest => do
    let isOpaque ← anyOpaque (steps bounds)
    let names ← opaqueNames rest
    return if isOpaque then name :: names else names

def cutAt (m : Mesh) (bounds : List Nat) (a : AxisRef) : Except Error (List AxisRef) := do
  let cuts ← range bounds a.preSize (a.nextPreSize m)
  (steps cuts).mapM fun s => return .ofWindow a.name s.1 (← quotient s.2 s.1) (a.fullSize m)

def atomsOf (m : Mesh) (table : List (String × List Nat)) (names : List String) (a : AxisRef) :
    Except Error (List AxisRef) :=
  if a.name ∈ names then .ok [a]
  else do cutAt m (← boundariesOf table a.name) a

def atomize (m : Mesh) (lists : List (List AxisRef)) : Except Error Subdivision := do
  let table := boundaryTable m lists.flatten
  let names ← opaqueNames table
  let lists ← lists.mapM fun list => return (← list.mapM (atomsOf m table names)).flatten
  return ⟨lists, names⟩

def removeSuffix (m : Mesh) (axes suffix : List AxisRef) :
    Except Error (Option (List AxisRef)) := do
  let cut ← atomize m [axes, suffix]
  match cut.lists with
  | [axes, suffix] =>
    if suffix.isSuffixOf axes then
      return some (mergeAdjacent m (← front axes suffix.length))
    else return none
  | _ => return none

end subdivision

section collective

variable (c : Collective)

def takeOff (m : Mesh) (dim : Nat) (axes suffix : List AxisRef) :
    Except Error (List AxisRef) := do
  match ← removeSuffix m axes suffix with
  | some rest => return rest
  | none => c.fail (.notSuffix suffix axes dim)

def gatherDims (m : Mesh) : Nat → List DimSharding → List (List AxisRef) →
    Except Error (List DimSharding)
  | dim, d :: ds, axes :: rest => do
    let kept ← takeOff c m dim d.axes axes
    let ds ← gatherDims m (dim + 1) ds rest
    return { d with axes := kept } :: ds
  | _, ds, _ => .ok ds

def checkUnused (m : Mesh) (s : TensorSharding) (used : List AxisRef) :
    List AxisRef → Except Error Unit
  | [] => .ok ()
  | a :: rest => do
    validate a m
    if AxisList.overlapsAny m a used then c.fail (.axisInUse a s)
    else checkUnused m s (used ++ [a]) rest

/-- The dimension has to be there to be given axes. -/
def setAxes (s : TensorSharding) (dim : Nat) (axes : List AxisRef) :
    Except Error TensorSharding := do
  let _ ← entry s.dims dim
  return s.modifyDim dim fun d => { d with axes := axes }

def applyMove (m : Mesh) (s : TensorSharding) (move : Move) : Except Error TensorSharding :=
  if move.source = move.target ∨ s.rank ≤ move.source ∨ s.rank ≤ move.target then
    c.fail (.moveDims move s.rank)
  else if move.axes.isEmpty then c.fail (.emptyMove move)
  else do
    let source ← entry s.dims move.source
    let kept ← takeOff c m move.source source.axes move.axes
    let s ← setAxes s move.source kept
    let target ← entry s.dims move.target
    setAxes s move.target (AxisList.mergeAdjacent m (target.axes ++ move.axes))

/-- The sharding that the collective leads to. -/
def apply (s : TensorSharding) (m : Mesh) : Except Error TensorSharding :=
  match c with
  | .allGather axes => do
    c.checkRank axes.length s
    let dims ← gatherDims c m 0 s.dims axes
    return { s with dims := dims }
  | .allSlice axes => do
    c.checkRank axes.length s
    checkUnused c m s (s.dimAxes ++ s.unreduced) axes.flatten
    return { s with
      dims := List.zipWith (Collective.sliceDim m) s.dims axes
      replicated := s.replicated.filter fun a => !AxisList.overlapsAny m a axes.flatten }
  | .allToAll moves => moves.foldlM (applyMove c m) s
  | .permute _ => c.apply s m

end collective

end Checked
end MeshSharding
