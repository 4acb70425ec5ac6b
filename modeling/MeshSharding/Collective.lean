import MeshSharding.Sharding

/-! Collective operations, which change how a tensor is sharded. -/
namespace MeshSharding

/-- The move of a suffix of axes from one dimension to the end of another. -/
structure Move where
  axes : List AxisRef
  source : Nat
  target : Nat
deriving DecidableEq

namespace Move

def text (m : Move) : String :=
  Text.braces (AxisList.text m.axes) ++ s!": {m.source}->{m.target}"

end Move

inductive Collective
  /-- Removes, in each dimension, axes from the minor end. -/
  | allGather (axes : List (List AxisRef))
  /-- Appends, in each dimension, axes that are not in use. -/
  | allSlice (axes : List (List AxisRef))
  /-- Makes the moves one after the other. -/
  | allToAll (moves : List Move)
  /-- Replaces the sharding by one with as many shards along every dimension. -/
  | permute (out : TensorSharding)
deriving DecidableEq

namespace Collective

def name : Collective → String
  | allGather _ => "all_gather"
  | allSlice _ => "all_slice"
  | allToAll _ => "all_to_all"
  | permute _ => "collective_permute"

/-- The operation that performs the collective in a program. -/
def operationName : Collective → String
  | allGather _ => "sdy.all_gather"
  | allSlice _ => "sdy.all_slice"
  | allToAll _ => "sdy.all_to_all"
  | permute _ => "sdy.collective_permute"

/-- The attribute under which an operation holds the parameters of its collective. -/
def attributeName : Collective → String
  | allGather _ => "gathering_axes"
  | allSlice _ => "slicing_axes"
  | allToAll _ => "params"
  | permute _ => "out_sharding"

/-- An empty collective changes no sharding. -/
def isEmpty : Collective → Bool
  | allGather axes => axes.all List.isEmpty
  | allSlice axes => axes.all List.isEmpty
  | allToAll moves => moves.isEmpty
  | permute _ => false

def listsText (axes : List (List AxisRef)) : String :=
  Text.brackets (Text.commas (axes.map fun list => Text.braces (AxisList.text list)))

def text : Collective → String
  | allGather axes => listsText axes
  | allSlice axes => listsText axes
  | allToAll moves => Text.brackets (Text.commas (moves.map Move.text))
  | permute out => out.text

def operationNames : List String :=
  ["sdy.all_gather", "sdy.all_slice", "sdy.all_to_all", "sdy.collective_permute"]

def isOperation (name : String) : Bool := operationNames.contains name

theorem operationName_mem (c : Collective) : c.operationName ∈ operationNames := by
  cases c <;> simp [operationName, operationNames]

end Collective
end MeshSharding
