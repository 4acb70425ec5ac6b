import MeshSharding.Collective

/-! The order of moves between dimensions. Moves into one dimension keep their order, and
a move out of a dimension comes before every move into it. -/
namespace MeshSharding
namespace Resharding

/-- The move with number `i` has to be made before the one with number `j`. -/
def precedes (moves : List Move) (i j : Nat) : Bool :=
  match moves[i]?, moves[j]? with
  | some a, some b => a.source = b.target ∨ (i < j ∧ a.target = b.target)
  | _, _ => false

def isReady (moves : List Move) (made : List Nat) (j : Nat) : Bool :=
  j ∉ made ∧ (List.range moves.length).all fun i => !precedes moves i j || made.contains i

/-- Makes, as long as there is one, the first move that nothing holds back. -/
def extendOrder (moves : List Move) : Nat → List Nat → List Nat
  | 0, made => made
  | n + 1, made =>
    match (List.range moves.length).find? (isReady moves made) with
    | some j => extendOrder moves n (made ++ [j])
    | none => made

/-- The numbers of the moves in an order that keeps to `precedes`, or, if there is none,
the numbers of the moves that cannot be made. -/
def orderMoves (moves : List Move) : Except (List Nat) (List Nat) :=
  let order := extendOrder moves moves.length []
  if order.length = moves.length then .ok order
  else .error ((List.range moves.length).filter fun i => i ∉ order)

end Resharding
end MeshSharding
