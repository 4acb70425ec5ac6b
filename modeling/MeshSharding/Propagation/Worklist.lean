import MeshSharding.Options
import MeshSharding.Propagation.Heuristic
import MeshSharding.Propagation.Provenance
import MeshSharding.Propagation.Table

/-! Propagation through all operations of a program. Operations wait in a queue, at first
all of them in program order. When the sharding of a value changes, the operation that
produces it and those that use it join the queue again. -/
namespace MeshSharding

/-- A refinement of a dimension of a value, taken from the sharding of `source`. -/
structure ShardingUpdate where
  value : Nat
  dim : Nat
  axes : List AxisRef
  source : Nat
deriving DecidableEq

/-- What a run of propagation does not change. -/
structure Propagator where
  program : Program
  options : Options
  policy : Policy

namespace Propagator

/-- The one mesh over which all sharded tensors of an operation are sharded. -/
def commonMesh (shardings : List (Option TensorSharding)) : Option String :=
  match shardings.filterMap id with
  | [] => none
  | s :: rest => if rest.all fun t => t.meshName = s.meshName then some s.meshName else none

def factorStep (g : Propagator) (m : Mesh) : FactorStep :=
  ⟨m, g.options.strategy, g.policy, g.options.conservative⟩

/-- One update for each dimension with a factor that has changed; `seen` are the
dimensions that already have theirs. -/
def updatesOf (m : Mesh) (o : Operation) (r : Rule) (p : Projection) :
    List (TensorRef × Nat) → List FactorUpdate → Except Error (List ShardingUpdate)
  | _, [] => .ok []
  | seen, u :: rest =>
    match (r.mapping? u.target).bind fun mapping =>
        (mapping.positionOf u.factor).map fun place => (mapping, place.1) with
    | none => updatesOf m o r p seen rest
    | some (mapping, dim) =>
      if (u.target, dim) ∈ seen then updatesOf m o r p seen rest
      else do
        let value ← o.valueAt u.target
        let source ← o.valueAt u.source
        let axes := ((p.tensor? u.target).map fun t => t.dimAxes m mapping dim).getD []
        let more ← updatesOf m o r p ((u.target, dim) :: seen) rest
        return ⟨value, dim, axes, source⟩ :: more

/-- What an operation asks of the shardings of its values. -/
structure Decision where
  meshName : String
  mesh : Mesh
  updates : List ShardingUpdate
deriving DecidableEq

/-- The updates of an operation, which depend on the table only through the shardings of
its operands and results. There are none unless these are over one mesh. -/
def decide (g : Propagator) (o : Operation) (r : Rule) (d : Direction) (t : ShardingTable) :
    Except Error (Option Decision) :=
  let operands := o.operands.map t.get
  let results := o.results.map t.get
  match commonMesh (operands ++ results) with
  | none => .ok none
  | some name => do
    let m ← g.program.mesh name
    let p ← Projection.ofShardings m r operands results
    let (p, changed) ← (g.factorStep m).propagate r d p
    let updates ← updatesOf m o r p [] changed
    return some ⟨name, m, updates⟩

structure State where
  queue : List Nat
  table : ShardingTable
  recorder : Recorder
  changed : Bool
deriving DecidableEq

def enqueue (queue : List Nat) (operation : Nat) : List Nat :=
  if operation ∈ queue then queue else queue ++ [operation]

/-- The operation that produces a value and those that use it. -/
def neighbours (p : Program) (value : Nat) : List Nat :=
  (p.values[value]?.bind (·.producer)).toList ++ p.usersOf value

def axesOf (t : ShardingTable) (value dim : Nat) : List AxisRef :=
  (((t.get value).bind fun s => s.dims[dim]?).map (·.axes)).getD []

def applyUpdate (g : Propagator) (operation : Nat) (d : Decision) (s : State)
    (u : ShardingUpdate) : State :=
  match s.table.refine u.value u.dim u.axes d.meshName d.mesh with
  | none => s
  | some table =>
    { queue := (neighbours g.program u.value).foldl enqueue s.queue
      table := table
      recorder := s.recorder.refine d.mesh operation u.source u.value u.dim
        (axesOf s.table u.value u.dim) u.axes
      changed := true }

/-- Processes an operation that has left the queue. -/
def process (g : Propagator) (directionOf : Operation → Direction) (s : State)
    (operation : Nat) : Except Error State := do
  let o ← g.program.operation operation
  match o.rule, directionOf o with
  | none, _ => return s
  | _, .none => return s
  | some rule, direction =>
    match ← g.decide o rule direction s.table with
    | none => return s
    | some d => return d.updates.foldl (g.applyUpdate operation d) s

/-- Processes the operations of the queue until it is empty. -/
def drain (g : Propagator) (directionOf : Operation → Direction) :
    Nat → State → Except Error State
  | steps, s =>
    match s.queue with
    | [] => .ok s
    | operation :: rest =>
      match steps with
      | 0 => .error (.fault .tooManySteps)
      | steps + 1 => do
        let next ← g.process directionOf { s with queue := rest } operation
        drain g directionOf steps next

/-- Runs one pass. The steps of a pass are counted in a word. -/
def run (g : Propagator) (directionOf : Operation → Direction) (t : ShardingTable)
    (r : Recorder) : Except Error State :=
  g.drain directionOf wordBound
    ⟨List.range g.program.operations.length, t, r, false⟩

def passesFrom (g : Propagator) (heuristics : List Heuristic) :
    List Nat → ShardingTable → Recorder → Except Error (ShardingTable × Recorder)
  | [], t, r => .ok (t, r)
  | pass :: rest, t, r => do
    let s ← g.run (Heuristic.direction heuristics pass) t r
    passesFrom g heuristics rest s.table s.recorder

/-- Runs one pass for each heuristic, or a single one in both directions. -/
def runPasses (g : Propagator) (heuristics : List Heuristic) (t : ShardingTable)
    (r : Recorder) : Except Error (ShardingTable × Recorder) :=
  if !g.options.byHeuristics || heuristics.isEmpty then do
    let s ← g.run (fun _ => .both) t r
    return (s.table, s.recorder)
  else g.passesFrom heuristics (List.range heuristics.length) t r

end Propagator
end MeshSharding
