import MeshSharding.Rule.Verify

/-! Rules under construction. Factors are added one at a time with the dimension they
have in each tensor; the factors of a dimension are ordered as they were added. -/
namespace MeshSharding
namespace Mapping

/-- A factor of size 1 is left out of a dimension that already has factors, and every
factor is left out of a tensor that does not have the dimension. -/
def place (m : Mapping) (dim factor size : Nat) : Mapping :=
  ⟨m.dims.modify dim fun factors =>
    if size = 1 ∧ factors ≠ [] then factors else factors ++ [factor]⟩

@[simp] theorem place_rank (m : Mapping) (dim factor size : Nat) :
    (m.place dim factor size).rank = m.rank := by simp [place, rank]

/-- Gives each dimension without factors one of its own, from `next` on; answers the
first number that is still free. -/
def fillDims (next : Nat) : List (List Nat) → List (List Nat) × Nat
  | [] => ([], next)
  | factors :: rest =>
    if factors.isEmpty then
      let filled := fillDims (next + 1) rest
      ([next] :: filled.1, filled.2)
    else
      let filled := fillDims next rest
      (factors :: filled.1, filled.2)

def fillAll (next : Nat) : List Mapping → List Mapping × Nat
  | [] => ([], next)
  | m :: rest =>
    let dims := fillDims next m.dims
    let filled := fillAll dims.2 rest
    (⟨dims.1⟩ :: filled.1, filled.2)

end Mapping

structure Draft where
  factors : List Factor
  operands : List Mapping
  results : List Mapping
deriving DecidableEq

namespace Draft

/-- No dimension has a factor. -/
def blank (sig : Signature) : Draft :=
  let unmapped (shape : Shape) : Mapping := ⟨shape.map fun _ => []⟩
  ⟨[], sig.operands.map unmapped, sig.results.map unmapped⟩

def factorCount (d : Draft) : Nat := d.factors.length

/-- Puts a factor into the given dimension of each tensor, as far as dimensions go. -/
def placeIn (factor size : Nat) : List Mapping → List (Option Nat) → List Mapping
  | m :: ms, some dim :: dims => m.place dim factor size :: placeIn factor size ms dims
  | m :: ms, none :: dims => m :: placeIn factor size ms dims
  | ms, _ => ms

def addFactor (d : Draft) (operandDims resultDims : List (Option Nat)) (f : Factor) : Draft :=
  ⟨d.factors ++ [f], placeIn d.factorCount f.size d.operands operandDims,
    placeIn d.factorCount f.size d.results resultDims⟩

/-- Adds a factor of dimension `dim` of every operand. -/
def addToOperands (d : Draft) (dim : Nat) (resultDims : List (Option Nat)) (f : Factor) :
    Draft :=
  d.addFactor (d.operands.map fun _ => some dim) resultDims f

/-- Adds a factor of dimension `dim` of every result. -/
def addToResults (d : Draft) (operandDims : List (Option Nat)) (dim : Nat) (f : Factor) :
    Draft :=
  d.addFactor operandDims (d.results.map fun _ => some dim) f

/-- Adds a factor of dimension `dim` of every tensor that has it. -/
def addToAll (d : Draft) (dim : Nat) (f : Factor) : Draft :=
  let place (m : Mapping) := m.place dim d.factorCount f.size
  ⟨d.factors ++ [f], d.operands.map place, d.results.map place⟩

def addDimsFrom (type : Nat → Nat → Option (FactorType × Bool)) : Nat → Draft → Shape → Draft
  | _, d, [] => d
  | dim, d, size :: rest =>
    match type dim size with
    | some (type', blocked) =>
      addDimsFrom type (dim + 1) (d.addToAll dim ⟨size, type', blocked⟩) rest
    | none => addDimsFrom type (dim + 1) d rest

/-- Adds a factor to all tensors for each dimension of a shape, of the type and with the
block that its number and size determine; a dimension without a type is passed over. -/
def addDims (d : Draft) (shape : Shape) (type : Nat → Nat → Option (FactorType × Bool)) :
    Draft :=
  addDimsFrom type 0 d shape

def addPointwise (d : Draft) (shape : Shape) (type : Nat → FactorType) : Draft :=
  d.addDims shape fun dim _ => some (type dim, false)

def addPointwiseBlocking (d : Draft) (shape : Shape) (type : Nat → FactorType)
    (blocked : Nat → Bool) : Draft :=
  d.addDims shape fun dim _ => some (type dim, blocked dim)

def addPointwiseIf (d : Draft) (shape : Shape) (p : Nat → Bool) (type : Nat → FactorType) :
    Draft :=
  d.addDims shape fun dim _ => if p dim then some (type dim, false) else none

/-- Dimensions whose size is another one in `output` are of type `mismatch`, the others
are passed through. -/
def addPointwiseMismatch (d : Draft) (input output : Shape) (mismatch : FactorType)
    (blocked : Bool) : Draft :=
  d.addDims input fun dim size =>
    if output[dim]? = some size then some (.passThrough, false) else some (mismatch, blocked)

/-- The rule in which every dimension without factors has one of size 1. -/
def finish (d : Draft) : Rule :=
  let operands := Mapping.fillAll d.factorCount d.operands
  let results := Mapping.fillAll operands.2 d.results
  ⟨d.factors ++ List.replicate (results.2 - d.factorCount) ⟨1, .passThrough, false⟩,
    operands.1, results.1, false⟩

@[simp] theorem addFactor_factorCount (d : Draft) (os rs : List (Option Nat)) (f : Factor) :
    (d.addFactor os rs f).factorCount = d.factorCount + 1 := by simp [addFactor, factorCount]

@[simp] theorem addToAll_factorCount (d : Draft) (dim : Nat) (f : Factor) :
    (d.addToAll dim f).factorCount = d.factorCount + 1 := by simp [addToAll, factorCount]

end Draft

namespace Rule

/-- All tensors share a factor for each dimension of the first result, or of the first
operand if there is no result. -/
def pointwise (sig : Signature) : Rule :=
  let shape := (sig.results.head?.or sig.operands.head?).getD []
  ((Draft.blank sig).addPointwise shape fun _ => .passThrough).finish

/-- The rule of an operation whose tensors all have the shape `shape`. -/
def identity (shape : Shape) (operands results : Nat) : Rule :=
  pointwise ⟨List.replicate operands shape, List.replicate results shape⟩

/-- The identity rule of as many tensors as there is memory for; a shape takes 24 bytes. -/
def checkedIdentity (shape : Shape) (operands results : Nat) : Except Error Rule :=
  if Sizes.fit operands 24 && Sizes.fit results 24 then .ok (identity shape operands results)
  else .error (.fault .outOfMemory)

end Rule
end MeshSharding
