import MeshSharding.Program

/-! Programs that are changed in place. A call runs step by step, and what it has changed stays
where a later step fails. The table of the users of all values is filled in one pass over the
operations. -/
namespace MeshSharding

/-- Steps on a program, the last of which may be an error. -/
abbrev Edit := ExceptT Error (StateM Program)

namespace Edit

def lookup {α : Type} (f : Program → Except Error α) : Edit α := do
  match f (← get) with
  | .ok a => return a
  | .error e => throw e

def checkValues (ids : List Nat) : Edit Unit :=
  ids.forM fun id => do
    let _ ← lookup fun p => p.value id

def pushValue (v : Value) : Edit Nat := do
  modify fun p => { p with values := p.values ++ [v] }
  return (← get).values.length - 1

def addArgument (shape : Shape) (s : Option TensorSharding) : Edit Nat := do
  let id ← pushValue ⟨shape, s, none⟩
  modify fun p => { p with arguments := p.arguments ++ [id] }
  return id

/-- The results are in the program before the operation is. -/
def addOperation (name : String) (operands : List Nat) (shapes : List Shape)
    (attributes : Attributes) : Edit (List Nat) := do
  checkValues operands
  let operation := (← get).operations.length
  let results ← shapes.mapM fun shape => pushValue ⟨shape, none, some operation⟩
  modify fun p => { p with
    operations := p.operations ++ [⟨name, operands, results, attributes, none⟩] }
  return results

def setOutputs (ids : List Nat) : Edit Unit := do
  checkValues ids
  modify fun p => { p with outputs := ids }

def addGroup (ids : List Nat) : Edit Unit := do
  checkValues ids
  modify fun p => { p with groups := p.groups ++ [ids] }

def setSharding (id : Nat) (s : Option TensorSharding) : Edit Unit := do
  let _ ← lookup fun p => p.value id
  modify fun p => p.putSharding id s

def setRule (id : Nat) (rule : Option Rule) : Edit Unit := do
  let _ ← lookup fun p => p.operation id
  modify fun p => p.putRule id rule

end Edit

/-- A call that changes a program. -/
inductive Call
  | addMesh (name : String) (mesh : Mesh)
  | addArgument (shape : Shape) (sharding : Option TensorSharding)
  | addOperation (name : String) (operands : List Nat) (shapes : List Shape)
      (attributes : Attributes)
  | setOutputs (ids : List Nat)
  | addGroup (ids : List Nat)
  | setSharding (id : Nat) (sharding : Option TensorSharding)
  | setRule (id : Nat) (rule : Option Rule)

namespace Call

/-- The steps of a call, which give the values that are new. -/
def edit : Call → Edit (List Nat)
  | addMesh name m => do modify fun p => p.addMesh name m; return []
  | addArgument shape s => do return [← Edit.addArgument shape s]
  | addOperation name operands shapes attributes =>
    Edit.addOperation name operands shapes attributes
  | setOutputs ids => do Edit.setOutputs ids; return []
  | addGroup ids => do Edit.addGroup ids; return []
  | setSharding id s => do Edit.setSharding id s; return []
  | setRule id rule => do Edit.setRule id rule; return []

/-- The answer of a call, and the program behind it. -/
def run (c : Call) (p : Program) : Except Error (List Nat) × Program := c.edit.run.run p

end Call

namespace Program

/-- Enters an operation as a user of a value, unless it is the last one there. -/
def enterUser (operation : Nat) (table : List (List Nat)) (operand : Nat) :
    Except Error (List (List Nat)) :=
  match table[operand]? with
  | none => .error (.fault .indexOutOfRange)
  | some known =>
    if known.getLast? = some operation then .ok table
    else .ok (table.set operand (known ++ [operation]))

def enterOperands (table : List (List Nat)) (x : Operation × Nat) :
    Except Error (List (List Nat)) :=
  x.1.operands.foldlM (enterUser x.2) table

/-- The users of each value, entered operation by operation. -/
def collectUsers (p : Program) : Except Error (List (List Nat)) :=
  p.operations.zipIdx.foldlM enterOperands (List.replicate p.values.length [])

end Program
end MeshSharding
