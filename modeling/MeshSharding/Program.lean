import MeshSharding.AxisList
import MeshSharding.Attribute
import MeshSharding.Rule.Verify

/-! Programs: operations in order over values with static shapes, each of which may have a
sharding over one of the meshes of the program. Values and operations are numbered. -/
namespace MeshSharding

structure Value where
  shape : Shape
  sharding : Option TensorSharding
  /-- The operation whose result the value is; arguments have none. -/
  producer : Option Nat
deriving DecidableEq

namespace Value

def rank (v : Value) : Nat := v.shape.length

def text (value : Nat) : String := s!"%{value}"

end Value

structure Operation where
  name : String
  operands : List Nat
  results : List Nat
  attributes : Attributes
  rule : Option Rule
deriving DecidableEq

namespace Operation

def values (o : Operation) : Side → List Nat
  | .operand => o.operands
  | .result => o.results

/-- The value at a place among the operands or results. -/
def valueAt (o : Operation) (t : TensorRef) : Except Error Nat :=
  match (o.values t.side)[t.index]? with
  | some value => .ok value
  | none => .error (.fault .indexOutOfRange)

end Operation

structure Program where
  /-- Sorted by name. -/
  meshes : List (String × Mesh)
  values : List Value
  operations : List Operation
  arguments : List Nat
  outputs : List Nat
  /-- Values that have to end up with one sharding. -/
  groups : List (List Nat)
deriving DecidableEq

namespace Program

def empty : Program := ⟨[], [], [], [], [], []⟩

/-- Adds a mesh, or replaces the one of that name. -/
def addMesh (p : Program) (name : String) (m : Mesh) : Program :=
  { p with meshes := Sorted.put name m p.meshes }

def mesh (p : Program) (name : String) : Except Error Mesh :=
  match Sorted.find? name p.meshes with
  | some m => .ok m
  | none => .error (.unknownMesh name)

def value (p : Program) (id : Nat) : Except Error Value :=
  match p.values[id]? with
  | some v => .ok v
  | none => .error (.unknownValue id)

def operation (p : Program) (id : Nat) : Except Error Operation :=
  match p.operations[id]? with
  | some o => .ok o
  | none => .error (.unknownOperation id)

def sharding? (p : Program) (id : Nat) : Option TensorSharding :=
  p.values[id]?.bind (·.sharding)

def shapeOf (p : Program) (id : Nat) : Shape := (p.values[id]?.map (·.shape)).getD []

/-- All the values exist. -/
def checkValues (p : Program) (ids : List Nat) : Except Error Unit :=
  match ids.find? fun id => p.values.length ≤ id with
  | some id => .error (.unknownValue id)
  | none => .ok ()

def pushValue (p : Program) (v : Value) : Program × Nat :=
  ({ p with values := p.values ++ [v] }, p.values.length)

def addArgument (p : Program) (shape : Shape) (s : Option TensorSharding) : Program × Nat :=
  let (p, id) := p.pushValue ⟨shape, s, none⟩
  ({ p with arguments := p.arguments ++ [id] }, id)

/-- Appends an operation; its results are new values without a sharding. -/
def addOperation (p : Program) (name : String) (operands : List Nat) (shapes : List Shape)
    (attributes : Attributes) : Except Error (Program × List Nat) := do
  p.checkValues operands
  let results := List.range' p.values.length shapes.length
  let producer := some p.operations.length
  return ({ p with
    values := p.values ++ shapes.map fun shape => ⟨shape, none, producer⟩
    operations := p.operations ++ [⟨name, operands, results, attributes, none⟩] }, results)

def setOutputs (p : Program) (ids : List Nat) : Except Error Program := do
  p.checkValues ids
  return { p with outputs := ids }

def addGroup (p : Program) (ids : List Nat) : Except Error Program := do
  p.checkValues ids
  return { p with groups := p.groups ++ [ids] }

def putSharding (p : Program) (id : Nat) (s : Option TensorSharding) : Program :=
  { p with values := p.values.modify id fun v => { v with sharding := s } }

def setSharding (p : Program) (id : Nat) (s : Option TensorSharding) :
    Except Error Program :=
  if id < p.values.length then .ok (p.putSharding id s) else .error (.unknownValue id)

def putRule (p : Program) (id : Nat) (rule : Option Rule) : Program :=
  { p with operations := p.operations.modify id fun o => { o with rule := rule } }

def setRule (p : Program) (id : Nat) (rule : Option Rule) : Except Error Program :=
  if id < p.operations.length then .ok (p.putRule id rule) else .error (.unknownOperation id)

def signatureOf (p : Program) (o : Operation) : Signature :=
  ⟨o.operands.map p.shapeOf, o.results.map p.shapeOf⟩

def signature (p : Program) (id : Nat) : Except Error Signature := do
  return p.signatureOf (← p.operation id)

/-- The operations that have the value as an operand, in program order. -/
def usersOf (p : Program) (id : Nat) : List Nat :=
  (p.operations.zipIdx.filter fun x => x.1.operands.contains id).map (·.2)

def users (p : Program) : List (List Nat) := (List.range p.values.length).map p.usersOf

/-- The operation that has the value as a result. -/
def producerIn (operations : List Operation) (id : Nat) : Option Nat :=
  (operations.zipIdx.filter fun x => x.1.results.contains id).getLast?.map (·.2)

/-- Replaces the operations. A value that was a result and is none any more has no
producer. -/
def withOperations (p : Program) (operations : List Operation) : Program :=
  { p with
    operations := operations
    values := p.values.mapIdx fun id v => { v with producer := producerIn operations id } }

end Program
end MeshSharding
