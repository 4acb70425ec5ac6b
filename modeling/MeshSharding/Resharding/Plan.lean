import MeshSharding.AxisList.Subdivision
import MeshSharding.Resharding.MoveOrder

/-! Plans for resharding. Each atom of the source stays in its dimension, moves to another
one or is gathered; each atom of the target stays, moves in or is sliced. -/
namespace MeshSharding
namespace Resharding

/-- The atoms of one dimension: the leading ones on which source and target agree, and
the rest of both. -/
structure DimTask where
  settled : List AxisRef
  source : List AxisRef
  target : List AxisRef
deriving DecidableEq

namespace DimTask

/-- Atoms of opaque axes are never settled. -/
def ofAtoms (opaqueAxes : List String) : List AxisRef → List AxisRef → DimTask
  | a :: as, b :: bs =>
    if a = b ∧ a.name ∉ opaqueAxes then
      let t := ofAtoms opaqueAxes as bs
      { t with settled := a :: t.settled }
    else ⟨[], a :: as, b :: bs⟩
  | as, bs => ⟨[], as, bs⟩

end DimTask

structure Task where
  dims : List DimTask
  /-- The atoms that can move, each with the dimension of the source it is in. -/
  movable : List (AxisRef × Nat)
deriving DecidableEq

namespace Task

def ofAtoms (opaqueAxes : List String) (source target : List (List AxisRef)) : Task :=
  let dims := List.zipWith (DimTask.ofAtoms opaqueAxes) source target
  let free (t : DimTask) := t.source.filter fun a => a.name ∉ opaqueAxes
  ⟨dims, (dims.mapIdx fun dim t => (free t).map fun a => (a, dim)).flatten⟩

/-- The dimension of the source that a movable atom is in, by its last occurrence. -/
def origin? (t : Task) (a : AxisRef) : Option Nat :=
  (t.movable.reverse.find? fun p => p.1 = a).map (·.2)

end Task

/-- What happens to the atoms of one dimension. -/
structure DimPlan where
  kept : List AxisRef
  gathered : List AxisRef
  incoming : List AxisRef
  sliced : List AxisRef
deriving DecidableEq

structure Plan where
  dims : List DimPlan
  /-- The moves, in the order in which they are made. -/
  moves : List Move
deriving DecidableEq

/-- The leading atoms of the target of dimension `dim` that stay in it, maybe at another
place. -/
def staying (t : Task) (dim : Nat) (d : DimTask) : List AxisRef :=
  d.target.takeWhile fun a => t.origin? a = some dim

/-- Splits atoms into the leading ones that move in from another dimension, with that
dimension, and the rest; `barred` ones do not move. -/
def splitIncoming (t : Task) (barred : List AxisRef) (dim : Nat) :
    List AxisRef → List (AxisRef × Nat) × List AxisRef
  | [] => ([], [])
  | a :: rest =>
    match t.origin? a with
    | some source =>
      if source ≠ dim ∧ a ∉ barred then
        let parts := splitIncoming t barred dim rest
        ((a, source) :: parts.1, parts.2)
      else ([], a :: rest)
    | none => ([], a :: rest)

def arrivals (t : Task) (barred : List AxisRef) (dim : Nat) (d : DimTask) :
    List (AxisRef × Nat) × List AxisRef :=
  splitIncoming t barred dim (d.target.drop (staying t dim d).length)

/-- Neighbours from one dimension move together. -/
def groupMoves (target : Nat) : List (AxisRef × Nat) → List Move
  | [] => []
  | (a, source) :: rest =>
    match groupMoves target rest with
    | [] => [⟨[a], source, target⟩]
    | move :: moves =>
      if move.source = source then { move with axes := a :: move.axes } :: moves
      else ⟨[a], source, target⟩ :: move :: moves

def stayingAtoms (t : Task) : List AxisRef := (t.dims.mapIdx (staying t)).flatten

def arrivingAtoms (t : Task) (barred : List AxisRef) : List AxisRef :=
  (t.dims.mapIdx fun dim d => (arrivals t barred dim d).1.map (·.1)).flatten

/-- The atoms `remaining` stay or move in somewhere; the others are gathered. -/
def classifyDim (t : Task) (barred remaining : List AxisRef) (dim : Nat) (d : DimTask) :
    DimPlan where
  kept := d.settled ++ staying t dim d
  gathered := d.source.filter fun a => a ∉ remaining
  incoming := (arrivals t barred dim d).1.map (·.1)
  sliced := (arrivals t barred dim d).2

def classify (t : Task) (barred : List AxisRef) : List DimPlan :=
  t.dims.mapIdx (classifyDim t barred (stayingAtoms t ++ arrivingAtoms t barred))

def movesOf (t : Task) (barred : List AxisRef) : List Move :=
  (t.dims.mapIdx fun dim d => groupMoves dim (arrivals t barred dim d).1).flatten

/-- Atoms that would arrive in a dimension before it has gathered others, and so end up
behind them. -/
def obstructed (dims : List DimPlan) : List AxisRef :=
  dims.flatMap fun d => if d.gathered.isEmpty then [] else d.incoming

def pick (moves : List Move) (numbers : List Nat) : List Move :=
  numbers.filterMap fun i => moves[i]?

/-- Bars atoms from moving until no move is obstructed and all can be ordered. Each round
but the last one bars an atom that moved before. -/
def search (t : Task) : Nat → List AxisRef → Option Plan
  | 0, _ => none
  | rounds + 1, barred =>
    let dims := classify t barred
    let moves := movesOf t barred
    if obstructed dims ≠ [] then search t rounds (barred ++ obstructed dims)
    else
      match orderMoves moves with
      | .ok order => some ⟨dims, pick moves order⟩
      | .error stuck => search t rounds (barred ++ (pick moves stuck).flatMap (·.axes))

/-- There are fewer rounds that bar atoms than atoms that can move. -/
def plan (t : Task) : Plan := (search t (t.movable.length + 1) []).getD ⟨[], []⟩

end Resharding
end MeshSharding
