import MeshSharding.Propagation.Worklist
import MeshSharding.Sharding.Validity

/-! Admission of the shardings of the user. A dimension with a priority is admitted at the
level of that priority, those without one at every level; propagation runs at each level
before dimensions of a later one are admitted. -/
namespace MeshSharding
namespace Admission

/-- Dimensions of a later level are hidden. -/
def isHidden (level : Option Nat) (d : DimSharding) : Bool :=
  match d.priority, level with
  | some priority, some level => level < priority
  | _, _ => false

/-- Reconciles a dimension of the user with what propagation has assigned to it. The axes
of the user are taken where they refine the current ones and are not in use; otherwise
the current ones stay, and a closed dimension is closed unless they refine it. -/
def admitDim (m : Mesh) (level : Option Nat) (value : Nat) (current : TensorSharding)
    (r : Recorder) (dim : Nat) (user : DimSharding) : TensorSharding × Recorder :=
  match current.dims[dim]? with
  | none => (current, r)
  | some d =>
    let isUsed := user.axes.any fun a => AxisList.overlapsAny m a (current.axesOutside dim)
    if isHidden level user then (current, r)
    else if !isUsed && AxisList.isPrefix m d.axes user.axes then
      (current.modifyDim dim fun d => { d with axes := user.axes, closed := user.closed },
        r.addUserAxes value user.axes)
    else if user.closed then
      (current.modifyDim dim fun d => { d with closed := true }, r)
    else (current, r)

def admitDims (m : Mesh) (level : Option Nat) (value : Nat) :
    Nat → List DimSharding → TensorSharding → Recorder → TensorSharding × Recorder
  | _, [], current, r => (current, r)
  | dim, user :: rest, current, r =>
    let next := admitDim m level value current r dim user
    admitDims m level value (dim + 1) rest next.1 next.2

/-- The sharding of the user without the axes of its dimensions. -/
def unadmitted (user : TensorSharding) : TensorSharding :=
  { user with dims := user.dims.map fun _ => .ofAxes [] false }

/-- Admits a sharding of the user at a level. A current sharding over another mesh or of
another rank is kept. -/
def admitSharding (m : Mesh) (level : Option Nat) (value : Nat) (user : TensorSharding)
    (current : Option TensorSharding) (r : Recorder) : TensorSharding × Recorder :=
  match current with
  | none => admitDims m level value 0 user.dims (unadmitted user) r
  | some s =>
    if s.meshName = user.meshName ∧ s.rank = user.rank then
      admitDims m level value 0 user.dims s r
    else (s, r)

/-- Admits the shardings of the values from number `value` on. -/
def admitValues (p : Program) (level : Option Nat) :
    Nat → List (Option TensorSharding) → ShardingTable → Recorder →
    Except Error (ShardingTable × Recorder)
  | _, [], t, r => .ok (t, r)
  | value, none :: rest, t, r => admitValues p level (value + 1) rest t r
  | value, some user :: rest, t, r => do
    let m ← p.mesh user.meshName
    let admitted := admitSharding m level value user (t.get value) r
    let t ← t.set value (some admitted.1)
    admitValues p level (value + 1) rest t admitted.2

def userShardings (p : Program) : List (Option TensorSharding) := p.values.map (·.sharding)

/-- The distinct priorities in increasing order. -/
def priorities (p : Program) : List Nat :=
  Sorted.ofList <| ((userShardings p).filterMap id).flatMap fun s =>
    s.dims.filterMap (·.priority)

/-- Without priorities there is one level that hides nothing. -/
def levels (p : Program) : List (Option Nat) :=
  if (priorities p).isEmpty then [none] else (priorities p).map some

def runLevels (g : Propagator) (heuristics : List Heuristic) :
    List (Option Nat) → ShardingTable → Recorder → Except Error (ShardingTable × Recorder)
  | [], t, r => .ok (t, r)
  | level :: rest, t, r => do
    let (t, r) ← admitValues g.program level 0 (userShardings g.program) t r
    let (t, r) ← g.runPasses heuristics t r
    runLevels g heuristics rest t r

/-- Writes the shardings of the table, without priorities, into the program. -/
def store (p : Program) (t : ShardingTable) : Program :=
  { p with values := p.values.mapIdx fun id v =>
      match t.get id with
      | some s => { v with sharding := some s.withoutPriorities }
      | none => v }

/-- Propagates the shardings of the user through the program, level by level. -/
def propagate (g : Propagator) (heuristics : List Heuristic) :
    Except Error (Program × Provenance) := do
  let t := ShardingTable.ofRanks (g.program.values.map Value.rank)
  let r := Recorder.start g.options.recordsOrigins g.options.recordsEdges
  let (t, r) ← runLevels g heuristics (levels g.program) t r
  return (store g.program t, r.record)

end Admission
end MeshSharding
