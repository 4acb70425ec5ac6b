import MeshSharding.Sizes
import MeshSharding.Text

/-! Sharding rules of operations. A rule relates the dimensions of the operands and
results of an operation through factors: each dimension of a tensor is the product of
the factors it is mapped to, from major to minor. -/
namespace MeshSharding

abbrev Shape := List Nat

inductive FactorType
  /-- Shardings flow freely between all tensors that have the factor. -/
  | passThrough
  /-- The operation reduces over the factor. -/
  | reduction
  /-- The operation is local only where the factor is replicated. -/
  | needReplication
  /-- The operation permutes data along the factor. -/
  | permutation
deriving DecidableEq

structure Factor where
  size : Nat
  type : FactorType
  blocked : Bool
deriving DecidableEq

/-- The factors of each dimension of one tensor, from major to minor. -/
structure Mapping where
  dims : List (List Nat)
deriving DecidableEq

namespace Mapping

def rank (m : Mapping) : Nat := m.dims.length

def factorsOf (m : Mapping) (dim : Nat) : List Nat := m.dims.getD dim []

/-- The first dimension that has the factor, and its place there. -/
def positionFrom (factor : Nat) : Nat → List (List Nat) → Option (Nat × Nat)
  | _, [] => none
  | dim, factors :: rest =>
    match factors.idxOf? factor with
    | some place => some (dim, place)
    | none => positionFrom factor (dim + 1) rest

def positionOf (m : Mapping) (factor : Nat) : Option (Nat × Nat) :=
  positionFrom factor 0 m.dims

def has (m : Mapping) (factor : Nat) : Bool := (m.positionOf factor).isSome

end Mapping

inductive Side
  | operand
  | result
deriving DecidableEq

namespace Side

def text : Side → String
  | operand => "operand"
  | result => "result"

end Side

/-- One of the operands or results of an operation. -/
structure TensorRef where
  side : Side
  index : Nat
deriving DecidableEq

structure Rule where
  factors : List Factor
  operands : List Mapping
  results : List Mapping
  custom : Bool
deriving DecidableEq

namespace Rule

/-- Every factor is passed through and not blocked. -/
def ofSizes (sizes : List Nat) (operands results : List Mapping) : Rule :=
  ⟨sizes.map fun size => ⟨size, .passThrough, false⟩, operands, results, false⟩

def factorCount (r : Rule) : Nat := r.factors.length

def sizes (r : Rule) : List Nat := r.factors.map (·.size)

def mappings (r : Rule) : Side → List Mapping
  | .operand => r.operands
  | .result => r.results

def mapping? (r : Rule) (t : TensorRef) : Option Mapping := (r.mappings t.side)[t.index]?

def allMappings (r : Rule) : List Mapping := r.operands ++ r.results

def sizeOf? (r : Rule) (factor : Nat) : Option Nat := r.factors[factor]?.map (·.size)

/-- A factor that does not exist is ignored. -/
def withType (r : Rule) (factor : Nat) (type : FactorType) : Rule :=
  { r with factors := r.factors.modify factor fun f => { f with type := type } }

/-- A factor that does not exist is ignored. -/
def withBlocked (r : Rule) (factor : Nat) : Rule :=
  { r with factors := r.factors.modify factor fun f => { f with blocked := true } }

/-- Custom rules come from the user. -/
def asCustom (r : Rule) : Rule := { r with custom := true }

def factorsWhere (r : Rule) (p : Factor → Bool) : List Nat :=
  (r.factors.zipIdx.filter fun x => p x.1).map (·.2)

def factorsOfType (r : Rule) (type : FactorType) : List Nat :=
  r.factorsWhere fun f => f.type = type

def blockedFactors (r : Rule) : List Nat := r.factorsWhere (·.blocked)

/-- The letters from `i` to `z` in turn; a number counts the rounds after the first. -/
def factorName (factor : Nat) : String :=
  let letter := String.singleton (Char.ofNat ('i'.toNat + factor % 18))
  if factor < 18 then letter else letter ++ s!"{factor / 18}"

def dimText (factors : List Nat) : String := String.join (factors.map factorName)

def mappingText (m : Mapping) : String :=
  Text.brackets (Text.commas (m.dims.map dimText))

def mappingsText (ms : List Mapping) : String :=
  "(" ++ Text.commas (ms.map mappingText) ++ ")"

def factorSetText (label : String) (factors : List Nat) : String :=
  if factors.isEmpty then ""
  else s!" {label}=" ++ Text.braces (Text.commas (factors.map factorName))

def sizesText (r : Rule) : String :=
  Text.braces (Text.commas (r.sizes.mapIdx fun i size => factorName i ++ s!"={size}"))

def text (r : Rule) : String :=
  "#sdy.op_sharding_rule<" ++ mappingsText r.operands ++ "->" ++ mappingsText r.results
    ++ " " ++ r.sizesText
    ++ factorSetText "reduction" (r.factorsOfType .reduction)
    ++ factorSetText "need_replication" (r.factorsOfType .needReplication)
    ++ factorSetText "permutation" (r.factorsOfType .permutation)
    ++ factorSetText "blocked_propagation" r.blockedFactors
    ++ (if r.custom then ", custom" else "") ++ ">"

@[simp] theorem ofSizes_factorCount (sizes : List Nat) (os rs : List Mapping) :
    (ofSizes sizes os rs).factorCount = sizes.length := by simp [ofSizes, factorCount]

@[simp] theorem withType_factorCount (r : Rule) (f : Nat) (t : FactorType) :
    (r.withType f t).factorCount = r.factorCount := by simp [withType, factorCount]

@[simp] theorem withBlocked_factorCount (r : Rule) (f : Nat) :
    (r.withBlocked f).factorCount = r.factorCount := by simp [withBlocked, factorCount]

end Rule
end MeshSharding
