import MeshSharding.Options
import MeshSharding.Program
import MeshSharding.Resharding
import MeshSharding.Collective.Apply
import MeshSharding.Rule.Catalogue

/-! Export: operations of sharding groups are removed, operands are resharded to what their
operations expect, rules that are not custom are dropped and shardings are closed. -/
namespace MeshSharding

/-- Collectives in front of an operand of an operation. -/
structure InsertedReshard where
  /-- The operation in the program with the collectives. -/
  operation : Nat
  operand : Nat
  /-- The operand before the collectives were inserted. -/
  source : Nat
  collectives : List Collective
deriving DecidableEq

namespace Export

/-- An operand that is not sharded as its operation expects. -/
structure Mismatch where
  operation : Nat
  operand : Nat
  expected : TensorSharding
deriving DecidableEq

/-- The first result that is sharded over a mesh, with its place among the results. -/
def referenceResult (p : Program) (meshName : String) :
    Nat → List Nat → Except Error (Option (Nat × Nat × TensorSharding))
  | _, [] => .ok none
  | index, result :: rest => do
    let v ← p.value result
    match v.sharding with
    | some s =>
      if s.meshName = meshName then return some (index, result, s)
      else referenceResult p meshName (index + 1) rest
    | none => referenceResult p meshName (index + 1) rest

/-- The axes that the operation expects for one dimension. Factors that need replication
have none, factors of the reference result have the axes they have there, and others keep
those of the operand. -/
def expectedAxes (r : Rule) (resultMapping : Mapping) (operand result : TensorFactors) :
    List Nat → Except Error (List AxisRef)
  | [] => .ok []
  | factor :: rest =>
    match r.factors[factor]? with
    | none => .error (.fault .indexOutOfRange)
    | some f => do
      let more ← expectedAxes r resultMapping operand result rest
      if f.type = .needReplication then return more
      else
        let tensor := if resultMapping.has factor then result else operand
        match tensor.factor? factor with
        | some x => return x.axes ++ x.overflow ++ more
        | none => return more

def expectedDims (m : Mesh) (r : Rule) (operandMapping resultMapping : Mapping)
    (operand result : TensorFactors) :
    Nat → List DimSharding → Except Error (List DimSharding)
  | _, [] => .ok []
  | dim, d :: ds => do
    let axes ← expectedAxes r resultMapping operand result (operandMapping.factorsOf dim)
    let rest ← expectedDims m r operandMapping resultMapping operand result (dim + 1) ds
    return .ofAxes (AxisList.mergeAdjacent m axes) d.closed :: rest

/-- A list of length `n` with one sharding. -/
def only (n index : Nat) (s : TensorSharding) : List (Option TensorSharding) :=
  (List.replicate n none).set index (some s)

/-- The sharding with axes by factor that an operation expects for an operand sharded as
`s`, given that of the reference result. -/
def expectedSharding (m : Mesh) (o : Operation) (r : Rule) (operand result : Nat)
    (s t : TensorSharding) : Except Error (Option TensorSharding) :=
  match r.operands[operand]?, r.results[result]? with
  | some operandMapping, some resultMapping => do
    let projection ← Projection.ofShardings m r
      (only o.operands.length operand s) (only o.results.length result t)
    match projection.operands[operand]?, projection.results[result]? with
    | some x, some y =>
      let dims ← expectedDims m r operandMapping resultMapping x y 0 s.dims
      return some { s with dims := dims }
    | _, _ => return none
  | _, _ => .ok none

/-- What an operation expects for an operand, with the reference result, if that is
another layout than the operand has and is valid for it. -/
def expectation (p : Program) (o : Operation) (r : Rule) (operand value : Nat) :
    Except Error (Option (TensorSharding × Nat)) := do
  let v ← p.value value
  match v.sharding with
  | none => return none
  | some s =>
    match ← referenceResult p s.meshName 0 o.results with
    | none => return none
    | some (index, reference, t) =>
      if r.operands.length ≤ operand ∨ r.results.length ≤ index then return none
      else
        let m ← p.mesh s.meshName
        match ← expectedSharding m o r operand index s t with
        | none => return none
        | some expected =>
          if expected.hasSameLayout s m then return none
          else
            match expected.validate m v.shape with
            | .ok _ => return some (expected, reference)
            | .error _ => return none

def isClosed (p : Program) (value : Nat) : Bool :=
  (p.sharding? value).any TensorSharding.isFullyClosed

/-- The mismatches of the operands of an operation from number `operand` on. Where no
collectives are inserted, one between closed shardings is an error. -/
def operandMismatches (options : Options) (p : Program) (operation : Nat) (o : Operation)
    (r : Rule) : Nat → List Nat → Except Error (List Mismatch)
  | _, [] => .ok []
  | operand, value :: rest => do
    match ← expectation p o r operand value with
    | none => operandMismatches options p operation o r (operand + 1) rest
    | some (expected, reference) =>
      if options.insertsCollectives then
        let more ← operandMismatches options p operation o r (operand + 1) rest
        return ⟨operation, operand, expected⟩ :: more
      else if isClosed p value && isClosed p reference then
        .error (.incompatible (.operand o.name operand value expected))
      else operandMismatches options p operation o r (operand + 1) rest

def mismatchesFrom (options : Options) (p : Program) :
    Nat → List Operation → Except Error (List Mismatch)
  | _, [] => .ok []
  | operation, o :: rest => do
    let here ← match o.rule with
      | some rule => operandMismatches options p operation o rule 0 o.operands
      | none => pure []
    let more ← mismatchesFrom options p (operation + 1) rest
    return here ++ more

def collectiveOperation (c : Collective) (operand result : Nat) : Operation :=
  ⟨c.operationName, [operand], [result], [(c.attributeName, .collective c)], none⟩

/-- Collective operations one behind the other, from a value with a sharding to one with
the sharding `expected`, with the new values of the program and the last one of them. -/
def chain (m : Mesh) (shape : Shape) (expected : TensorSharding) :
    Program → Nat → TensorSharding → List Collective →
    Except Error (Program × List Operation × Nat)
  | p, value, _, [] => .ok (p, [], value)
  | p, value, s, c :: rest => do
    let applied ← c.apply s m
    let next := if rest.isEmpty then expected else applied
    let (p, result) := p.pushValue ⟨shape, some next, none⟩
    let (p, operations, last) ← chain m shape expected p result next rest
    return (p, collectiveOperation c value result :: operations, last)

/-- A chain of collective operations for one operand. -/
structure Insertion where
  operation : Nat
  operand : Nat
  source : Nat
  collectives : List Collective
  operations : List Operation
  value : Nat
deriving DecidableEq

/-- The chains for the mismatches; operands that need no collective are passed over. -/
def insertions : Program → List Mismatch → Except Error (Program × List Insertion)
  | p, [] => .ok (p, [])
  | p, x :: rest => do
    let o ← p.operation x.operation
    let source ← o.valueAt ⟨.operand, x.operand⟩
    let v ← p.value source
    match v.sharding with
    | none => insertions p rest
    | some s =>
      let m ← p.mesh x.expected.meshName
      let cs ← Resharding.reshard s x.expected m
      if cs.isEmpty then insertions p rest
      else
        let (p, operations, value) ← chain m v.shape x.expected p source s cs
        let (p, more) ← insertions p rest
        return (p, ⟨x.operation, x.operand, source, cs, operations, value⟩ :: more)

def setOperand (o : Operation) (i : Insertion) : Operation :=
  { o with operands := o.operands.set i.operand i.value }

/-- Puts the chains for each operation in front of it; `start` counts the operations that
are already in place. -/
def splice (all : List Insertion) :
    Nat → Nat → List Operation → List Operation × List InsertedReshard
  | _, _, [] => ([], [])
  | start, operation, o :: rest =>
    let here := all.filter fun i => i.operation = operation
    let before := here.flatMap (·.operations)
    let place := start + before.length
    let more := splice all (place + 1) (operation + 1) rest
    (before ++ here.foldl setOperand o :: more.1,
      (here.map fun i => ⟨place, i.operand, i.source, i.collectives⟩) ++ more.2)

def insertReshards (options : Options) (p : Program) :
    Except Error (Program × List InsertedReshard) := do
  let mismatches ← mismatchesFrom options p 0 p.operations
  if mismatches.isEmpty then return (p, [])
  else
    let (p, all) ← insertions p mismatches
    let spliced := splice all 0 0 p.operations
    return (p.withOperations spliced.1, spliced.2)

def withoutGroups (p : Program) : Program :=
  p.withOperations (p.operations.filter fun o => o.name ≠ Catalogue.groupOperation)

/-- Only custom rules stay. -/
def dropRules (p : Program) : Program :=
  { p with operations := p.operations.map fun o =>
      { o with rule := o.rule.filter (·.custom) } }

def closeShardings (p : Program) : Program :=
  { p with values := p.values.map fun v =>
      { v with sharding := v.sharding.map TensorSharding.closedLike } }

def exportProgram (options : Options) (p : Program) :
    Except Error (Program × List InsertedReshard) := do
  let (p, reshards) ← insertReshards options (withoutGroups p)
  let p := if options.keepRules then p else dropRules p
  let p := if options.closesShardings then closeShardings p else p
  return (p, reshards)

end Export
end MeshSharding
