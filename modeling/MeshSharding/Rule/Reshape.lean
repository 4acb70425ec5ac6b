import MeshSharding.Rule.Draft

/-! The rule of a reshape. The dimensions of the input and the output are matched from
major to minor: a size that is a multiple of the other one gives off a factor of that
size. Where neither divides the other, what is left of both is kept replicated. -/
namespace MeshSharding
namespace Reshape

/-- A factor of an input dimension, an output dimension or both. -/
structure Link where
  input : Option Nat
  output : Option Nat
  size : Nat
deriving DecidableEq

/-- Sizes that are not matched, with their dimensions. -/
def leftover (ins outs : List (Nat × Nat)) : List Link :=
  ((ins.filter fun p => 1 < p.2).map fun p => ⟨some p.1, none, p.2⟩)
    ++ (outs.filter fun p => 1 < p.2).map fun p => ⟨none, some p.1, p.2⟩

/-- Matches dimensions, given as their number and the size not yet matched. -/
def links : List (Nat × Nat) → List (Nat × Nat) → List Link
  | (i, a) :: ins, (o, b) :: outs =>
    if a = 0 ∨ b = 0 then leftover ((i, a) :: ins) ((o, b) :: outs)
    else if a = b then ⟨some i, some o, a⟩ :: links ins outs
    else if a % b = 0 then ⟨some i, some o, b⟩ :: links ((i, a / b) :: ins) outs
    else if b % a = 0 then ⟨some i, some o, a⟩ :: links ins ((o, b / a) :: outs)
    else leftover ((i, a) :: ins) ((o, b) :: outs)
  | ins, outs => leftover ins outs
termination_by ins outs => ins.length + outs.length

/-- The dimensions whose size is not 1. -/
def dimsOf (shape : Shape) : List (Nat × Nat) :=
  (shape.mapIdx fun dim size => (dim, size)).filter fun p => p.2 ≠ 1

def typeOf (l : Link) : FactorType :=
  if l.input.isSome ∧ l.output.isSome then .passThrough else .needReplication

def addLink (d : Draft) (l : Link) : Draft :=
  d.addFactor [l.input] [l.output] ⟨l.size, typeOf l, false⟩

def draft (input output : Shape) : Draft :=
  (links (dimsOf input) (dimsOf output)).foldl addLink (Draft.blank ⟨[input], [output]⟩)

end Reshape
end MeshSharding
