import MeshSharding.AxisList.Prefix
import MeshSharding.Propagation.Direction
import MeshSharding.Propagation.Projection

/-! Propagation between the tensors of one operation. For each factor a candidate is found
among its shardings in the source tensors, and every target that the candidate refines
is extended towards it as far as it can be. -/
namespace MeshSharding

inductive Strategy
  /-- The axes on which all sharded sources agree. -/
  | basic
  /-- The axes of the source that a policy picks. -/
  | aggressive
deriving DecidableEq

/-- Picks one of the candidates, or none of them. -/
abbrev Policy := Mesh → List (List AxisRef) → Option Nat

namespace Policy

def largestFrom (m : Mesh) : Nat → Option (Nat × Nat) → List (List AxisRef) → Option Nat
  | _, best, [] => best.map (·.1)
  | index, best, axes :: rest =>
    let size := AxisList.totalSize m axes
    if best.all fun b => b.2 < size then largestFrom m (index + 1) (some (index, size)) rest
    else largestFrom m (index + 1) best rest

/-- The first candidate of the largest size. -/
def largest : Policy := fun m candidates => largestFrom m 0 none candidates

end Policy

/-- The factor sharding of `target` has taken axes from `source`. -/
structure FactorUpdate where
  factor : Nat
  target : TensorRef
  source : TensorRef
deriving DecidableEq

structure FactorStep where
  mesh : Mesh
  strategy : Strategy
  policy : Policy
  conservative : Bool

namespace FactorStep

def isSource (d : Direction) (t : TensorRef) : Bool :=
  match t.side with
  | .operand => d.isForward
  | .result => d.isBackward

def isTarget (d : Direction) (t : TensorRef) : Bool :=
  match t.side with
  | .operand => d.isBackward
  | .result => d.isForward

/-- The tensors whose sharding of the factor may flow, with its axes. -/
def sources (p : Projection) (d : Direction) (factor : Nat) :
    List (TensorRef × List AxisRef) :=
  (p.refs.filter (isSource d)).filterMap fun t =>
    match p.factor? t factor with
    | some f => if f.axes.isEmpty then none else some (t, f.axes)
    | none => none

def targets (p : Projection) (d : Direction) (factor : Nat) : List TensorRef :=
  p.refs.filter fun t => isTarget d t ∧ (p.factor? t factor).isSome

def candidate (s : FactorStep) (sources : List (TensorRef × List AxisRef)) :
    Option (List AxisRef × TensorRef) :=
  match s.strategy, sources with
  | _, [] => none
  | .basic, (first, axes) :: rest =>
    let common := AxisList.commonPrefixOfAll s.mesh (axes :: rest.map (·.2))
    if common.isEmpty then none else some (common, first)
  | .aggressive, all => do
    let index ← s.policy s.mesh (all.map (·.2))
    let picked ← all[index]?
    return (picked.2, picked.1)

/-- A factor takes further axes if its dimension is open and has no overflow, the factors
before it are used up and those behind it have no axes. -/
def canExpand (s : FactorStep) (r : Rule) (t : TensorRef) (tensor : TensorFactors)
    (factor : Nat) (f : FactorSharding) : Bool :=
  match (r.mapping? t).bind fun m => (m.positionOf factor).map fun at_ => (m, at_) with
  | none => false
  | some (m, (dim, place)) =>
    let factors := m.factorsOf dim
    !f.closed && f.overflow.isEmpty
      && (factors.take place).all (fun major =>
        (tensor.factor? major).any fun x =>
          some (AxisList.totalSize s.mesh x.axes) = r.sizeOf? major)
      && (f.minorMost || (factors.drop (place + 1)).all fun minor =>
        (tensor.factor? minor).all fun x => x.axes.isEmpty)

/-- The leading axes that a factor of size `size` and with `shards` shards can take. The
minor-most factor takes one axis that does not divide it; any other factor takes a major
part of such an axis, if there is one. -/
def grow (s : FactorStep) (size : Nat) (minorMost : Bool) (used : List AxisRef) :
    Nat → List AxisRef → Except Error (List AxisRef)
  | _, [] => .ok []
  | shards, a :: rest =>
    if AxisList.overlapsAny s.mesh a used || (s.conservative && a.isSub) then .ok []
    else if shards * a.size s.mesh = 0 then .error (.fault .divisionByZero)
    else if size % (shards * a.size s.mesh) = 0 then do
      let more ← grow s size minorMost used (shards * a.size s.mesh) rest
      return a :: more
    else if s.conservative then .ok []
    else if minorMost ∧ shards < size then .ok [a]
    else if size % shards = 0 then
      .ok ((a.split (Nat.gcd (size / shards) (a.size s.mesh)) s.mesh).toList.map (·.1))
    else .ok []

/-- The axes that the factor sharding of a target takes in addition. -/
def extension (s : FactorStep) (r : Rule) (p : Projection) (factor : Nat)
    (towards : List AxisRef) (t : TensorRef) : Except Error (List AxisRef) :=
  match p.tensor? t with
  | none => .ok []
  | some tensor =>
    match tensor.factor? factor with
    | none => .ok []
    | some f =>
      if s.canExpand r t tensor factor f then
        match AxisList.stripPrefix? s.mesh towards f.axes, r.sizeOf? factor with
        | some rest, some size =>
          s.grow size f.minorMost (tensor.usedExcept factor)
            (AxisList.totalSize s.mesh f.axes) rest
        | _, _ => .ok []
      else .ok []

def axesOf (p : Projection) (t : TensorRef) (factor : Nat) : List AxisRef :=
  ((p.factor? t factor).map (·.axes)).getD []

/-- Extends the targets one after the other; the updates are those that changed. -/
def extendTargets (s : FactorStep) (r : Rule) (factor : Nat) (towards : List AxisRef)
    (source : TensorRef) :
    Projection → List TensorRef → Except Error (Projection × List FactorUpdate)
  | p, [] => .ok (p, [])
  | p, t :: rest => do
    match ← s.extension r p factor towards t with
    | [] => extendTargets s r factor towards source p rest
    | more =>
      let next := p.setAxes t factor (axesOf p t factor ++ more)
      let (last, updates) ← extendTargets s r factor towards source next rest
      return (last, ⟨factor, t, source⟩ :: updates)

/-- Blocked factors and those that need replication are never propagated. -/
def flows (f : Factor) : Bool := !f.blocked && f.type ≠ .needReplication

def propagateFactor (s : FactorStep) (r : Rule) (d : Direction) (p : Projection)
    (factor : Nat) : Except Error (Projection × List FactorUpdate) :=
  if r.factors[factor]?.any flows then
    match s.candidate (sources p d factor) with
    | none => .ok (p, [])
    | some (towards, source) =>
      s.extendTargets r factor towards source p (targets p d factor)
  else .ok (p, [])

def propagateFactors (s : FactorStep) (r : Rule) (d : Direction) :
    Projection → List Nat → Except Error (Projection × List FactorUpdate)
  | p, [] => .ok (p, [])
  | p, factor :: rest => do
    let (next, updates) ← s.propagateFactor r d p factor
    let (last, more) ← propagateFactors s r d next rest
    return (last, updates ++ more)

/-- Propagates the factors in order; each sees what those before it have changed. -/
def propagate (s : FactorStep) (r : Rule) (d : Direction) (p : Projection) :
    Except Error (Projection × List FactorUpdate) :=
  s.propagateFactors r d p (List.range r.factorCount)

end FactorStep
end MeshSharding
