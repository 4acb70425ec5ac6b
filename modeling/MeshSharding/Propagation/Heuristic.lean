import MeshSharding.Program
import MeshSharding.Propagation.Direction
import MeshSharding.Rule.Catalogue

/-! Heuristics, which decide in what direction shardings flow through an operation. There
is one pass for each of them, in the directions of all heuristics up to it. -/
namespace MeshSharding

abbrev Heuristic := Operation → Direction

namespace Heuristic

/-- Every factor of size above 1 is passed through, unblocked, in all tensors. -/
def isPassThrough (r : Rule) : Bool :=
  (List.range r.factorCount).all fun i =>
    r.factors[i]?.all fun f => f.size ≤ 1
      || (f.type = .passThrough && !f.blocked && r.allMappings.all fun m => m.has i)

/-- Operations that do not change how data is laid out. -/
def passThrough : Heuristic := fun o =>
  if o.rule.any isPassThrough || Catalogue.isElementwise o.name
      || ["stablehlo.transpose", "stablehlo.reshape"].contains o.name then .both
  else .none

def broadcastForward : Heuristic := fun o =>
  if o.name = "stablehlo.broadcast_in_dim" then .forward else .none

def all : Heuristic := fun _ => .both

/-- From the highest priority to the lowest. -/
def standard : List Heuristic := [passThrough, broadcastForward, all]

/-- The direction of an operation in the pass with number `pass`. -/
def direction (heuristics : List Heuristic) (pass : Nat) (o : Operation) : Direction :=
  (heuristics.take (pass + 1)).foldl (fun d h => d.union (h o)) .none

end Heuristic
end MeshSharding
