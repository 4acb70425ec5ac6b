/-! The directions in which shardings flow through an operation. -/
namespace MeshSharding

inductive Direction
  | none
  /-- From operands to results. -/
  | forward
  /-- From results to operands. -/
  | backward
  | both
deriving DecidableEq

namespace Direction

/-- Allows every flow that one of the two directions allows. -/
def union : Direction → Direction → Direction
  | none, d => d
  | d, none => d
  | forward, forward => forward
  | backward, backward => backward
  | _, _ => both

def isForward : Direction → Bool
  | forward => true
  | both => true
  | _ => false

def isBackward : Direction → Bool
  | backward => true
  | both => true
  | _ => false

theorem isForward_union (a b : Direction) :
    (a.union b).isForward = (a.isForward || b.isForward) := by cases a <;> cases b <;> rfl

theorem isBackward_union (a b : Direction) :
    (a.union b).isBackward = (a.isBackward || b.isBackward) := by cases a <;> cases b <;> rfl

end Direction
end MeshSharding
