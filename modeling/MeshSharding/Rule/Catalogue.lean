import MeshSharding.Attribute
import MeshSharding.Rule.Reshape

/-! The rules of operations by the names of the operations. -/
namespace MeshSharding

/-- The rule of an operation by its attributes and shapes. -/
abbrev RuleFactory := Attributes → Signature → Except Error Rule

namespace RuleFactory
open Rule (malformed)

def miscounted {α : Type} (operation : String) (sig : Signature) (operands results : Nat) :
    Except Error α :=
  malformed (.tensorCounts operation (operands, results)
    (sig.operands.length, sig.results.length))

def pointwise : RuleFactory := fun _ sig => .ok (Rule.pointwise sig)

def identity : RuleFactory := fun _ sig =>
  let shape := (sig.operands.head?.or sig.results.head?).getD []
  if sig.all.all (· = shape) then
    .ok (Rule.identity shape sig.operands.length sig.results.length)
  else malformed .identityShapes

/-- A result dimension shares its factor with the operand dimension that is broadcast to
it, if both have one size. -/
def addBroadcastDim (operand : Shape) (dims : List Nat) (d : Draft) (entry : Nat × Nat) :
    Draft :=
  let source := (dims.idxOf? entry.2).filter fun dim => operand[dim]? = some entry.1
  d.addFactor [source] [some entry.2] ⟨entry.1, .passThrough, false⟩

def broadcastInDim : RuleFactory := fun attrs sig =>
  match sig with
  | ⟨[operand], [result]⟩ => do
    let dims ← attrs.dimensions "broadcast_dimensions"
    if dims.length ≠ operand.length ∨ dims.any fun dim => result.length ≤ dim then
      malformed .broadcastDimensions
    else return (result.zipIdx.foldl (addBroadcastDim operand dims) (Draft.blank sig)).finish
  | _ => miscounted "stablehlo.broadcast_in_dim" sig 1 1

def addConcatenateDim (dim : Nat) (d : Draft) (entry : Nat × Nat) : Draft :=
  d.addToOperands entry.2 [some entry.2]
    ⟨entry.1, if entry.2 = dim then .permutation else .passThrough, false⟩

def concatenate : RuleFactory := fun attrs sig =>
  if sig.operands.isEmpty then malformed .concatenatesNothing
  else
    match sig.results with
    | [result] => do
      let dim ← attrs.dimension "dimension"
      if result.length ≤ dim then malformed .concatenationDimension
      else return (result.zipIdx.foldl (addConcatenateDim dim) (Draft.blank sig)).finish
    | _ => miscounted "stablehlo.concatenate" sig sig.operands.length 1

/-- The batching and contracting dimensions of a product of two tensors. -/
structure DotDims where
  lhsBatch : List Nat
  rhsBatch : List Nat
  lhsContract : List Nat
  rhsContract : List Nat
deriving DecidableEq

namespace DotDims

def ofAttributes (attrs : Attributes) : Except Error DotDims := do
  return ⟨← attrs.dimensions "lhs_batching_dimensions",
    ← attrs.dimensions "rhs_batching_dimensions",
    ← attrs.dimensions "lhs_contracting_dimensions",
    ← attrs.dimensions "rhs_contracting_dimensions"⟩

def isValid (d : DotDims) (lhs rhs : Shape) : Bool :=
  d.lhsBatch.length = d.rhsBatch.length ∧ d.lhsContract.length = d.rhsContract.length
    ∧ (d.lhsBatch ++ d.lhsContract).all (· < lhs.length)
    ∧ (d.rhsBatch ++ d.rhsContract).all (· < rhs.length)

def lhsFree (d : DotDims) (lhs : Shape) : List Nat :=
  (List.range lhs.length).filter fun dim => dim ∉ d.lhsBatch ∧ dim ∉ d.lhsContract

def rhsFree (d : DotDims) (rhs : Shape) : List Nat :=
  (List.range rhs.length).filter fun dim => dim ∉ d.rhsBatch ∧ dim ∉ d.rhsContract

end DotDims

/-- The operand and result dimensions of each factor of a product of two tensors: batches,
free dimensions of the left and of the right operand, and contractions. -/
def dotFactors (d : DotDims) (lhs rhs : Shape) :
    List (List (Option Nat) × List (Option Nat) × Factor) :=
  let batch := d.lhsBatch.length
  let free := batch + (d.lhsFree lhs).length
  ((d.lhsBatch.zip d.rhsBatch).mapIdx fun i p =>
      ([some p.1, some p.2], [some i], ⟨lhs.getD p.1 1, .passThrough, false⟩))
    ++ ((d.lhsFree lhs).mapIdx fun i dim =>
      ([some dim, none], [some (batch + i)], ⟨lhs.getD dim 1, .passThrough, false⟩))
    ++ ((d.rhsFree rhs).mapIdx fun i dim =>
      ([none, some dim], [some (free + i)], ⟨rhs.getD dim 1, .passThrough, false⟩))
    ++ ((d.lhsContract.zip d.rhsContract).map fun p =>
      ([some p.1, some p.2], [none], ⟨lhs.getD p.1 1, .reduction, false⟩))

def dotGeneral : RuleFactory := fun attrs sig =>
  match sig with
  | ⟨[lhs, rhs], [_]⟩ => do
    let dims ← DotDims.ofAttributes attrs
    if dims.isValid lhs rhs then
      return ((dotFactors dims lhs rhs).foldl (fun d f => d.addFactor f.1 f.2.1 f.2.2)
        (Draft.blank sig)).finish
    else malformed .dotDimensions
  | _ => miscounted "stablehlo.dot_general" sig 2 1

/-- Data moves along the dimensions that change their size. -/
def padOrSlice : RuleFactory := fun _ sig =>
  match sig.operands.head?, sig.results.head? with
  | some operand, some result =>
    .ok ((Draft.blank sig).addPointwiseMismatch operand result .permutation true).finish
  | _, _ => malformed .padsNothing

/-- Adds the dimensions of the `count` inputs of a reduction; `next` is the result dimension
of the next one that is not reduced. -/
def addReduceDims (count : Nat) (reduced : List Nat) : Nat → Nat → Draft → Shape → Draft
  | _, _, d, [] => d
  | dim, next, d, size :: rest =>
    let inputs := List.replicate count (some dim)
    if dim ∈ reduced then
      addReduceDims count reduced (dim + 1) next
        (d.addFactor inputs [] ⟨size, .reduction, false⟩) rest
    else
      addReduceDims count reduced (dim + 1) (next + 1)
        (d.addToResults inputs next ⟨size, .passThrough, false⟩) rest

/-- A reduction of `n` inputs has `n` scalar initial values and `n` results. -/
def reduce : RuleFactory := fun attrs sig =>
  let count := sig.results.length
  if sig.operands.length ≠ 2 * count then
    miscounted "stablehlo.reduce" sig (2 * count) count
  else
    match sig.operands with
    | [] => malformed .reducesNothing
    | input :: _ => do
      let reduced ← attrs.dimensions "dimensions"
      return (addReduceDims count reduced 0 0 (Draft.blank sig) input).finish

def reshape : RuleFactory := fun _ sig =>
  match sig with
  | ⟨[input], [output]⟩ =>
    if Sizes.product input = Sizes.product output then .ok (Reshape.draft input output).finish
    else malformed .elementCount
  | _ => miscounted "stablehlo.reshape" sig 1 1

def transpose : RuleFactory := fun attrs sig =>
  match sig with
  | ⟨[operand], [result]⟩ => do
    let permutation ← attrs.dimensions "permutation"
    if permutation.length = result.length
        ∧ permutation.mergeSort = List.range operand.length then
      return ((permutation.zipIdx.foldl fun d p => d.addFactor [some p.1] [some p.2]
        ⟨operand.getD p.1 1, .passThrough, false⟩) (Draft.blank sig)).finish
    else malformed .transposition
  | _ => miscounted "stablehlo.transpose" sig 1 1

end RuleFactory

/-- The factories of the operations that have one, sorted by name. -/
abbrev Catalogue := List (String × RuleFactory)

namespace Catalogue

def elementwise : List String :=
  ["stablehlo.abs", "stablehlo.add", "stablehlo.and", "stablehlo.clamp",
   "stablehlo.compare", "stablehlo.convert", "stablehlo.cosine", "stablehlo.divide",
   "stablehlo.exponential", "stablehlo.log", "stablehlo.logistic", "stablehlo.maximum",
   "stablehlo.minimum", "stablehlo.multiply", "stablehlo.negate", "stablehlo.or",
   "stablehlo.power", "stablehlo.rsqrt", "stablehlo.select", "stablehlo.sine",
   "stablehlo.sqrt", "stablehlo.subtract", "stablehlo.tanh"]

def isElementwise (name : String) : Bool := elementwise.contains name

/-- The operation that keeps the members of a sharding group alike. -/
def groupOperation : String := "sdy.sharding_group"

/-- The operation that pins the sharding of a value. -/
def constraintOperation : String := "sdy.sharding_constraint"

def contains (c : Catalogue) (name : String) : Bool := (Sorted.find? name c).isSome

def register (c : Catalogue) (name : String) (factory : RuleFactory) : Catalogue :=
  Sorted.put name factory c

def builtin : Catalogue :=
  Sorted.ofEntries <|
    (elementwise.map fun name => (name, RuleFactory.pointwise)) ++
    [("stablehlo.broadcast_in_dim", RuleFactory.broadcastInDim),
     ("stablehlo.concatenate", RuleFactory.concatenate),
     ("stablehlo.dot_general", RuleFactory.dotGeneral),
     ("stablehlo.pad", RuleFactory.padOrSlice),
     ("stablehlo.reduce", RuleFactory.reduce),
     ("stablehlo.reshape", RuleFactory.reshape),
     ("stablehlo.slice", RuleFactory.padOrSlice),
     ("stablehlo.transpose", RuleFactory.transpose),
     (constraintOperation, RuleFactory.identity),
     (groupOperation, RuleFactory.identity)]

/-- An operation without a factory is pointwise if all its shapes are equal. -/
def propose (c : Catalogue) (name : String) (attrs : Attributes) (sig : Signature) :
    Except Error Rule :=
  match Sorted.find? name c with
  | some factory => factory attrs sig
  | none =>
    if sig.all.all fun shape => some shape = sig.all.head? then .ok (Rule.pointwise sig)
    else .error (.unknownOperationName name)

/-- The rule of an operation, which is well-formed for its shapes. -/
def ruleFor (c : Catalogue) (name : String) (attrs : Attributes) (sig : Signature) :
    Except Error Rule := do
  let rule ← c.propose name attrs sig
  rule.verify sig
  return rule

end Catalogue
end MeshSharding
