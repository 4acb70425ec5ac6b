import MeshSharding.AxisList
import MeshSharding.Sorted

/-! The common subdivision of axis lists. The boundaries of all windows of an axis cut
each of its references into atoms, two of which are equal or do not overlap. An axis on
which a boundary does not divide the next one has no such atoms and is opaque. -/
namespace MeshSharding
namespace AxisList

/-- The neighbours in a list. -/
def steps (l : List Nat) : List (Nat × Nat) := l.zip l.tail

/-- The ends of the windows of an axis, in increasing order. -/
def boundaries (m : Mesh) (axes : List AxisRef) (name : String) : List Nat :=
  Sorted.ofList <| (axes.filter fun a => a.name = name).flatMap fun a =>
    [a.preSize, a.nextPreSize m]

def isOpaque (bounds : List Nat) : Bool := (steps bounds).any fun s => s.2 % s.1 ≠ 0

/-- A boundary at zero that is followed by another one divides nothing. -/
def isUndefined (bounds : List Nat) : Bool := (steps bounds).any fun s => s.1 = 0

structure Subdivision where
  lists : List (List AxisRef)
  opaqueAxes : List String
deriving DecidableEq

/-- The parts between the boundaries from the major end of a reference to its minor end. -/
def cutAt (m : Mesh) (bounds : List Nat) (a : AxisRef) : List AxisRef :=
  (steps (bounds.filter fun c => a.preSize ≤ c ∧ c ≤ a.nextPreSize m)).map fun s =>
    .ofWindow a.name s.1 (s.2 / s.1) (a.fullSize m)

def atomsOf (m : Mesh) (all : List AxisRef) (opaqueAxes : List String) (a : AxisRef) :
    List AxisRef :=
  if a.name ∈ opaqueAxes then [a] else cutAt m (boundaries m all a.name) a

def opaqueAxes (m : Mesh) (all : List AxisRef) : List String :=
  (Sorted.ofList (all.map (·.name))).filter fun name => isOpaque (boundaries m all name)

/-- Cuts all references into atoms; those to opaque axes stay as they are. -/
def atomize (m : Mesh) (lists : List (List AxisRef)) : Except Error Subdivision :=
  let all := lists.flatten
  if all.any fun a => isUndefined (boundaries m all a.name) then
    .error (.fault .divisionByZero)
  else
    let names := opaqueAxes m all
    .ok ⟨lists.map fun list => list.flatMap (atomsOf m all names), names⟩

/-- Takes axes off the minor end of a list, where both are first cut into atoms. -/
def removeSuffix (m : Mesh) (axes suffix : List AxisRef) :
    Except Error (Option (List AxisRef)) := do
  let cut ← atomize m [axes, suffix]
  match cut.lists with
  | [axes, suffix] =>
    if suffix.isSuffixOf axes then
      return some (mergeAdjacent m (axes.take (axes.length - suffix.length)))
    else return none
  | _ => return none

end AxisList
end MeshSharding
