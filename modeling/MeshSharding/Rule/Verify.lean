import MeshSharding.Error

/-! When a rule is well-formed for the shapes of an operation. -/
namespace MeshSharding

/-- The shapes of the operands and results of an operation. -/
structure Signature where
  operands : List Shape
  results : List Shape
deriving DecidableEq

namespace Signature

def shapes (s : Signature) : Side → List Shape
  | .operand => s.operands
  | .result => s.results

def all (s : Signature) : List Shape := s.operands ++ s.results

end Signature

namespace Rule

def malformed {α : Type} (defect : RuleDefect) : Except Error α :=
  .error (.malformedRule defect)

/-- The factors exist and are none of those seen before in the tensor, to which they are
added. -/
def checkFactors (r : Rule) (t : TensorRef) (seen : List Nat) :
    List Nat → Except Error (List Nat)
  | [] => .ok seen
  | f :: rest =>
    if r.factorCount ≤ f then malformed (.unknownFactor f)
    else if f ∈ seen then malformed (.repeatedFactor t f)
    else checkFactors r t (f :: seen) rest

def productOf (r : Rule) (factors : List Nat) : Nat :=
  Sizes.product (factors.map fun f => (r.sizeOf? f).getD 1)

/-- A dimension that a single factor permutes or replicates may differ from it in size. -/
def isExempt (r : Rule) : List Nat → Bool
  | [f] => r.factors[f]?.any fun x => x.type = .permutation ∨ x.type = .needReplication
  | _ => false

def checkDims (r : Rule) (t : TensorRef) : Nat → List Nat → List (List Nat) → Shape →
    Except Error Unit
  | dim, seen, factors :: dims, size :: sizes =>
    if factors.isEmpty then malformed (.unmapped t dim)
    else do
      let seen ← checkFactors r t seen factors
      if r.productOf factors ≠ size ∧ !r.isExempt factors then
        malformed (.dimSize t dim (r.productOf factors) size)
      else checkDims r t (dim + 1) seen dims sizes
  | _, _, _, _ => .ok ()

def checkTensors (r : Rule) (side : Side) : Nat → List Mapping → List Shape →
    Except Error Unit
  | index, mapping :: mappings, shape :: shapes =>
    if mapping.rank ≠ shape.length then
      malformed (.mappingRank ⟨side, index⟩ shape.length mapping.rank)
    else do
      checkDims r ⟨side, index⟩ 0 [] mapping.dims shape
      checkTensors r side (index + 1) mappings shapes
  | _, _, _ => .ok ()

def checkSide (r : Rule) (side : Side) (shapes : List Shape) : Except Error Unit :=
  if (r.mappings side).length ≠ shapes.length then
    malformed (.mappingCount side shapes.length (r.mappings side).length)
  else checkTensors r side 0 (r.mappings side) shapes

/-- Every dimension is the product of distinct factors of the rule, each tensor has a
factor at most once, and the counts and ranks are those of the shapes. -/
def verify (r : Rule) (sig : Signature) : Except Error Unit := do
  checkSide r .operand sig.operands
  checkSide r .result sig.results

end Rule
end MeshSharding
