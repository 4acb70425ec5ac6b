import MeshSharding.AxisList
import MeshSharding.Sorted

/-! Projections of shardings onto the factors of a rule. The axes of a dimension are dealt
out to its factors from major to minor: each factor but the minor-most takes axes until
its size is used up, and the minor-most takes the rest. -/
namespace MeshSharding

/-- The sharding of one factor in one tensor. -/
structure FactorSharding where
  axes : List AxisRef
  closed : Bool
  minorMost : Bool
  /-- Axes of the dimension behind one that does not fit the factor. -/
  overflow : List AxisRef
deriving DecidableEq

/-- What a factor takes of the axes of its dimension. -/
structure Share where
  axes : List AxisRef
  overflow : List AxisRef
  rest : List AxisRef
deriving DecidableEq

namespace Share

/-- Takes axes for a factor of which `capacity` is left. An axis is split where a major
part of it fits; one that does not fit is taken and the axes behind it overflow. -/
def take (m : Mesh) : Nat → List AxisRef → Except Error Share
  | _, [] => .ok ⟨[], [], []⟩
  | capacity, a :: rest =>
    if capacity ≤ 1 then .ok ⟨[], [], a :: rest⟩
    else if a.size m = 0 then .error (.fault .divisionByZero)
    else if capacity % a.size m = 0 then do
      let share ← take m (capacity / a.size m) rest
      return { share with axes := a :: share.axes }
    else
      match if a.size m % capacity = 0 then a.split capacity m else none with
      | some parts => .ok ⟨[parts.1], [], parts.2 :: rest⟩
      | none => .ok ⟨[a], rest, []⟩

end Share

/-- The factor shardings of one tensor, by factor, and the axes outside of dimensions. -/
structure TensorFactors where
  factors : List (Nat × FactorSharding)
  replicated : List AxisRef
  unreduced : List AxisRef
deriving DecidableEq

namespace TensorFactors

def dealOut (m : Mesh) (r : Rule) (closed : Bool) :
    List Nat → List AxisRef → Except Error (List (Nat × FactorSharding))
  | [], _ => .ok []
  | [f], axes => .ok [(f, ⟨axes, closed, true, []⟩)]
  | f :: rest, axes =>
    match r.sizeOf? f with
    | none => .error (.fault .indexOutOfRange)
    | some size => do
      let share ← Share.take m size axes
      let others ← dealOut m r closed rest share.rest
      return (f, ⟨share.axes, closed, false, share.overflow⟩) :: others

/-- A dimension without a sharding counts as open and without axes. -/
def dealOutDims (m : Mesh) (r : Rule) :
    List (List Nat) → List DimSharding → Except Error (List (Nat × FactorSharding))
  | [], _ => .ok []
  | factors :: rest, dims => do
    let dim := dims.head?.getD (.ofAxes [] false)
    let entries ← dealOut m r dim.closed factors dim.axes
    let others ← dealOutDims m r rest dims.tail
    return entries ++ others

/-- A tensor without a sharding counts as fully open. -/
def project (m : Mesh) (r : Rule) (mapping : Mapping) (s : Option TensorSharding) :
    Except Error TensorFactors := do
  let dims := (s.map (·.dims)).getD []
  let entries ← dealOutDims m r mapping.dims dims
  return ⟨Sorted.ofEntries entries, (s.map (·.replicated)).getD [],
    (s.map (·.unreduced)).getD []⟩

def factor? (t : TensorFactors) (factor : Nat) : Option FactorSharding :=
  Sorted.find? factor t.factors

def setAxes (t : TensorFactors) (factor : Nat) (axes : List AxisRef) : TensorFactors :=
  { t with factors := Sorted.update factor (fun f => { f with axes := axes }) t.factors }

/-- Every axis the tensor uses, but for those that shard the given factor. -/
def usedExcept (t : TensorFactors) (factor : Nat) : List AxisRef :=
  (t.factors.flatMap fun entry =>
    (if entry.1 = factor then [] else entry.2.axes) ++ entry.2.overflow)
    ++ t.replicated ++ t.unreduced

/-- The axes of a dimension, put together from those of its factors. -/
def dimAxes (t : TensorFactors) (m : Mesh) (mapping : Mapping) (dim : Nat) : List AxisRef :=
  AxisList.mergeAdjacent m <| (mapping.factorsOf dim).flatMap fun factor =>
    match t.factor? factor with
    | some f => f.axes ++ f.overflow
    | none => []

end TensorFactors

/-- The factor shardings of all tensors of an operation. -/
structure Projection where
  operands : List TensorFactors
  results : List TensorFactors
deriving DecidableEq

namespace Projection

def projectAll (m : Mesh) (r : Rule) :
    List Mapping → List (Option TensorSharding) → Except Error (List TensorFactors)
  | [], _ => .ok []
  | mapping :: mappings, shardings => do
    let t ← TensorFactors.project m r mapping (shardings.head?.getD none)
    let rest ← projectAll m r mappings shardings.tail
    return t :: rest

def ofShardings (m : Mesh) (r : Rule) (operands results : List (Option TensorSharding)) :
    Except Error Projection := do
  return ⟨← projectAll m r r.operands operands, ← projectAll m r r.results results⟩

def tensors (p : Projection) : Side → List TensorFactors
  | .operand => p.operands
  | .result => p.results

def tensor? (p : Projection) (t : TensorRef) : Option TensorFactors :=
  (p.tensors t.side)[t.index]?

def factor? (p : Projection) (t : TensorRef) (factor : Nat) : Option FactorSharding :=
  (p.tensor? t).bind fun tensor => tensor.factor? factor

def setAxes (p : Projection) (t : TensorRef) (factor : Nat) (axes : List AxisRef) :
    Projection :=
  match t.side with
  | .operand =>
    { p with operands := p.operands.modify t.index fun x => x.setAxes factor axes }
  | .result =>
    { p with results := p.results.modify t.index fun x => x.setAxes factor axes }

/-- The operands, then the results. -/
def refs (p : Projection) : List TensorRef :=
  ((List.range p.operands.length).map fun i => ⟨.operand, i⟩)
    ++ (List.range p.results.length).map fun i => ⟨.result, i⟩

end Projection
end MeshSharding
