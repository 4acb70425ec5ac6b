import MeshSharding.Program

/-! The textual form of programs. -/
namespace MeshSharding
namespace Program

def typeText (shape : Shape) : String :=
  "tensor<" ++ String.intercalate "x" (shape.map toString) ++ ">"

def valuesText (ids : List Nat) : String := Text.commas (ids.map Value.text)

def noted (label body : String) : String := " " ++ Text.braces (s!"{label} = " ++ body)

def meshLine (entry : String × Mesh) : String :=
  s!"sdy.mesh @{Text.escape entry.1} = {entry.2.literal}\n"

def argumentLine (p : Program) (id : Nat) : String :=
  let note := match p.sharding? id with
    | some s => noted "sdy.sharding" s.text
    | none => ""
  s!"{Value.text id} = sdy.argument : {typeText (p.shapeOf id)}" ++ note ++ "\n"

def attributesText (attributes : Attributes) : String :=
  if attributes.isEmpty then ""
  else " " ++ Text.braces
    (Text.commas (attributes.map fun entry => s!"{entry.1} = {entry.2.text}"))

def shardingOrNone (p : Program) (id : Nat) : String :=
  match p.sharding? id with
  | some s => s.text
  | none => "<none>"

/-- The shardings of the results are noted if one of them has one. -/
def resultShardingsText (p : Program) (ids : List Nat) : String :=
  if ids.any fun id => (p.sharding? id).isSome then
    noted "sdy.sharding" ("#sdy.sharding_per_value<"
      ++ Text.brackets (Text.commas (ids.map p.shardingOrNone)) ++ ">")
  else ""

def ruleText : Option Rule → String
  | some rule => noted "sdy.sharding_rule" rule.text
  | none => ""

def operationLine (p : Program) (o : Operation) : String :=
  (if o.results.isEmpty then "" else valuesText o.results ++ " = ")
    ++ o.name ++ "(" ++ valuesText o.operands ++ ")" ++ attributesText o.attributes
    ++ " : " ++ Text.commas (o.results.map fun id => typeText (p.shapeOf id))
    ++ p.resultShardingsText o.results ++ ruleText o.rule ++ "\n"

def groupLine (group : List Nat) : String :=
  "sdy.sharding_group(" ++ valuesText group ++ ")\n"

def text (p : Program) : String :=
  String.join (p.meshes.map meshLine) ++ (if p.meshes.isEmpty then "" else "\n")
    ++ String.join (p.arguments.map p.argumentLine)
    ++ String.join (p.operations.map p.operationLine)
    ++ String.join (p.groups.map groupLine)
    ++ "return " ++ valuesText p.outputs ++ "\n"

end Program
end MeshSharding
