import MeshSharding.Error
import MeshSharding.Sorted

/-! Named attributes of operations, sorted by name. -/
namespace MeshSharding

inductive Attribute
  | int (value : Int64)
  | ints (values : List Int64)
  | string (value : String)
  | collective (c : Collective)
deriving DecidableEq

namespace Attribute

def text : Attribute → String
  | int value => toString value
  | ints values => "array<i64: " ++ Text.commas (values.map toString) ++ ">"
  | string value => Text.quoted value
  | collective c => c.text

end Attribute

abbrev Attributes := List (String × Attribute)

/-- The value of a word without a negative sign. -/
def Word.index? (value : Int64) : Option Nat :=
  if value < 0 then none else some value.toNatClampNeg

namespace Attributes

def bad {α : Type} (name : String) (defect : AttributeDefect) : Except Error α :=
  .error (.malformedRule (.badAttribute name defect))

def get? (attrs : Attributes) (name : String) : Option Attribute := Sorted.find? name attrs

/-- An attribute that is the number of a dimension. -/
def dimension (attrs : Attributes) (name : String) : Except Error Nat :=
  match attrs.get? name with
  | some (.int value) =>
    match Word.index? value with
    | some dim => .ok dim
    | none => bad name .negativeInteger
  | some _ => bad name .notInteger
  | none => bad name .missing

/-- An attribute that is a list of numbers of dimensions. -/
def dimensions (attrs : Attributes) (name : String) : Except Error (List Nat) :=
  match attrs.get? name with
  | some (.ints values) =>
    match values.mapM Word.index? with
    | some dims => .ok dims
    | none => bad name .negativeIntegers
  | some _ => bad name .notIntegers
  | none => bad name .missing

end Attributes
end MeshSharding
