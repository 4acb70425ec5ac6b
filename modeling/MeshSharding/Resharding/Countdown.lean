import MeshSharding.Resharding.MoveOrder
import MeshSharding.Sorted

/-! The order of moves by counting. A move has a count of the links to it from moves that are still
to be made, and can be made when the count is down to zero. Of the moves into one dimension only
neighbours are linked. -/
namespace MeshSharding
namespace Resharding

/-- The next move into the same dimension. -/
def nextInto? (moves : List Move) (i : Nat) (move : Move) : Option Nat :=
  (List.range' (i + 1) (moves.length - (i + 1))).find? fun j =>
    moves[j]?.any (·.target = move.target)

/-- The moves that are held back by move `i`. One can be held back twice: as a move into the
dimension that move `i` leaves, and as the next one into the dimension that it goes into. -/
def linksFrom (moves : List Move) (i : Nat) : List Nat :=
  match moves[i]? with
  | some move => (nextInto? moves i move).toList
      ++ (List.range moves.length).filter fun j => moves[j]?.any (·.target = move.source)
  | none => []

/-- How many links still lead to each move, and the moves that can be made, in increasing order. -/
structure Queue where
  counts : List Nat
  ready : List Nat
deriving DecidableEq

namespace Queue

def ofMoves (moves : List Move) : Queue :=
  let links := (List.range moves.length).flatMap (linksFrom moves)
  let counts := links.foldl (fun counts j => counts.modify j (· + 1))
    (List.replicate moves.length 0)
  ⟨counts, (List.range moves.length).filter fun j => counts[j]? = some 0⟩

/-- Takes away a link to move `j`, which can be made if it was the last one. -/
def release (q : Queue) (j : Nat) : Queue :=
  let counts := q.counts.modify j (· - 1)
  ⟨counts, if counts[j]? = some 0 then Sorted.insert j q.ready else q.ready⟩

end Queue

/-- Makes, as long as there is one, the first move that can be made. -/
def countdown (moves : List Move) : Nat → Queue → List Nat → List Nat
  | 0, _, made => made
  | _ + 1, ⟨_, []⟩, made => made
  | n + 1, ⟨counts, i :: ready⟩, made =>
    countdown moves n ((linksFrom moves i).foldl Queue.release ⟨counts, ready⟩) (made ++ [i])

/-- The numbers of the moves in the order in which they are made, or the numbers of those that
cannot be made. -/
def sortMoves (moves : List Move) : Except (List Nat) (List Nat) :=
  let order := countdown moves moves.length (.ofMoves moves) []
  if order.length = moves.length then .ok order
  else .error ((List.range moves.length).filter fun i => i ∉ order)

end Resharding
end MeshSharding
