import MeshSharding.Program
import MeshSharding.Rule.Catalogue
import MeshSharding.Sharding.Validity

/-! Import: the shardings of a program are checked, every operation gets a rule, and each
sharding group becomes an operation that keeps its members alike. -/
namespace MeshSharding
namespace Import

def checkValue (p : Program) (v : Value) : Except Error Unit :=
  match v.sharding with
  | none => .ok ()
  | some s => do
    let m ← p.mesh s.meshName
    s.validate m v.shape

/-- Checks the rule of an operation, or gives it the one of the catalogue. Collective
operations need none. -/
def ruled (c : Catalogue) (p : Program) (o : Operation) : Except Error Operation :=
  if Collective.isOperation o.name then .ok o
  else
    match o.rule with
    | some rule => do
      rule.verify (p.signatureOf o)
      return o
    | none => do
      let rule ← c.ruleFor o.name o.attributes (p.signatureOf o)
      return { o with rule := some rule }

/-- All members have the shape of the first one. -/
def checkShapes (p : Program) (first : Nat) : List Nat → Except Error Unit
  | [] => .ok ()
  | member :: rest => do
    let v ← p.value member
    if v.shape ≠ p.shapeOf first then
      .error (.incompatible (.groupShapes first member))
    else checkShapes p first rest

/-- Dimensions that both shardings close have the same axes. -/
def agree (m : Mesh) (s t : TensorSharding) : Bool :=
  (s.dims.zip t.dims).all fun d =>
    !d.1.closed || !d.2.closed || AxisList.equivalent m d.1.axes d.2.axes

def checkAgainst (p : Program) (left : Nat × TensorSharding) :
    List (Nat × TensorSharding) → Except Error Unit
  | [] => .ok ()
  | right :: rest => do
    let conflict := Error.incompatible (.groupShardings left.1 left.2 right.1 right.2)
    if left.2.meshName ≠ right.2.meshName then .error conflict
    else
      let m ← p.mesh left.2.meshName
      if agree m left.2 right.2 then checkAgainst p left rest else .error conflict

/-- No two shardings conflict. -/
def checkPairs (p : Program) : List (Nat × TensorSharding) → Except Error Unit
  | [] => .ok ()
  | left :: rest => do
    checkAgainst p left rest
    checkPairs p rest

def shardingsOf (p : Program) (group : List Nat) : List (Nat × TensorSharding) :=
  group.filterMap fun member => (p.sharding? member).map fun s => (member, s)

/-- Adds the operation of a group, with all members as operands and a value of their shape
as its result. -/
def addGroupOperation (p : Program) : List Nat → Except Error Program
  | [] => .ok p
  | first :: rest => do
    let group := first :: rest
    let shape := (← p.value first).shape
    checkShapes p first group
    checkPairs p (shardingsOf p group)
    let (p, results) ← p.addOperation Catalogue.groupOperation group [shape] []
    p.setRule (p.operations.length - 1)
      (some (Rule.identity shape group.length results.length))

def importProgram (c : Catalogue) (p : Program) : Except Error Program := do
  p.values.forM (checkValue p)
  let operations ← p.operations.mapM (ruled c p)
  let p ← p.groups.foldlM addGroupOperation { p with operations := operations }
  return { p with groups := [] }

end Import
end MeshSharding
