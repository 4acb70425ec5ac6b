import MeshSharding.Attribute
import MeshSharding.Mesh
import MeshSharding.Wire.Message

/-! What the messages stand for. A size or a number beyond the signed words is stored as
the largest signed word; a negative word stands for none. -/
namespace MeshSharding
namespace Wire

def ofSize (n : Nat) : Int64 := if n < signedBound then Int64.ofNat n else Int64.maxValue

def size (field : String) (value : Int64) : Except Error Nat :=
  match Word.index? value with
  | some n => .ok n
  | none => .error (.decode (.negative field value))

namespace AxisMessage

def ofWindow (w : Window) : WindowMessage := ⟨ofSize w.preSize, ofSize w.size⟩

def ofAxis (a : AxisRef) : AxisMessage := ⟨a.name, a.window.map ofWindow⟩

def axis (m : AxisMessage) : Except Error AxisRef :=
  match m.window with
  | none => return .full m.name
  | some w => return .sub m.name (← size "pre_size" w.preSize) (← size "size" w.size)

def ofAxes (axes : List AxisRef) : List AxisMessage := axes.map ofAxis

def list (ms : List AxisMessage) : Except Error (List AxisRef) := ms.mapM axis

end AxisMessage

namespace DimMessage

def ofDim (d : DimSharding) : DimMessage :=
  ⟨AxisMessage.ofAxes d.axes, d.closed, d.priority.map ofSize⟩

def dim (m : DimMessage) : Except Error DimSharding :=
  return ⟨← AxisMessage.list m.axes, m.closed, ← m.priority.mapM (size "priority")⟩

end DimMessage

namespace ShardingMessage

def ofSharding (s : TensorSharding) : ShardingMessage :=
  ⟨s.meshName, s.dims.map DimMessage.ofDim, AxisMessage.ofAxes s.replicated,
    AxisMessage.ofAxes s.unreduced⟩

def sharding (m : ShardingMessage) : Except Error TensorSharding :=
  return ⟨m.meshName, ← m.dims.mapM DimMessage.dim, ← AxisMessage.list m.replicated,
    ← AxisMessage.list m.unreduced⟩

end ShardingMessage

namespace MeshMessage

def ofMeshAxis (a : MeshAxis) : MeshAxisMessage := ⟨a.name, ofSize a.size⟩

def ofMesh (m : Mesh) : MeshMessage := ⟨m.axes.map ofMeshAxis, m.deviceIds.getD []⟩

def meshAxis (m : MeshAxisMessage) : Except Error MeshAxis := do
  MeshAxis.create m.name (← size "size" m.size)

def mesh (m : MeshMessage) : Except Error Mesh := do
  let axes ← m.axes.mapM meshAxis
  if m.deviceIds.isEmpty then Mesh.ofAxes axes else Mesh.ofAxesAndDevices axes m.deviceIds

end MeshMessage

namespace MappingMessage

def ofMapping (m : Mapping) : MappingMessage :=
  ⟨m.dims.map fun factors => ⟨factors.map ofSize⟩⟩

def mapping (m : MappingMessage) : Except Error Mapping :=
  return ⟨← m.dims.mapM fun dim => dim.factors.mapM (size "factor_indices")⟩

end MappingMessage

namespace RuleMessage

def ofRule (r : Rule) : RuleMessage where
  sizes := r.sizes.map ofSize
  operands := r.operands.map MappingMessage.ofMapping
  results := r.results.map MappingMessage.ofMapping
  reduction := (r.factorsOfType .reduction).map ofSize
  needReplication := (r.factorsOfType .needReplication).map ofSize
  permutation := (r.factorsOfType .permutation).map ofSize
  blocked := r.blockedFactors.map ofSize
  custom := r.custom

def factor (count : Nat) (field : String) (value : Int64) : Except Error Nat := do
  let f ← size field value
  if f < count then return f else .error (.decode (.factorInField f field count))

/-- A factor has at most one type other than being passed through. -/
def giveType (field : String) (type : FactorType) (r : Rule) (value : Int64) :
    Except Error Rule := do
  let f ← factor r.factorCount field value
  if r.factors[f]?.any fun x => x.type = .passThrough then return r.withType f type
  else .error (.decode (.severalTypes f))

def block (r : Rule) (value : Int64) : Except Error Rule := do
  return r.withBlocked (← factor r.factorCount "blocked_propagation_factors" value)

/-- The mappings of one side, which map to factors below `count` only. -/
def mappings (count : Nat) (ms : List MappingMessage) : Except Error (List Mapping) := do
  let mapped ← ms.mapM MappingMessage.mapping
  match (mapped.flatMap fun m => m.dims.flatten).find? fun f => count ≤ f with
  | some f => .error (.decode (.mappedFactor f count))
  | none => return mapped

def rule (m : RuleMessage) : Except Error Rule := do
  let sizes ← m.sizes.mapM (size "factor_sizes")
  let r := Rule.ofSizes sizes [] []
  let r ← m.reduction.foldlM (giveType "reduction_factors" .reduction) r
  let r ← m.needReplication.foldlM (giveType "need_replication_factors" .needReplication) r
  let r ← m.permutation.foldlM (giveType "permutation_factors" .permutation) r
  let r ← m.blocked.foldlM block r
  let operands ← mappings sizes.length m.operands
  let results ← mappings sizes.length m.results
  return ⟨r.factors, operands, results, m.custom⟩

end RuleMessage

namespace MoveMessage

def ofMove (m : Move) : MoveMessage :=
  ⟨AxisMessage.ofAxes m.axes, ofSize m.source, ofSize m.target⟩

def move (m : MoveMessage) : Except Error Move :=
  return ⟨← AxisMessage.list m.axes, ← size "source_dimension" m.source,
    ← size "target_dimension" m.target⟩

end MoveMessage

namespace MovesMessage

def ofMoves (ms : List Move) : MovesMessage := ⟨ms.map MoveMessage.ofMove⟩

def content (m : MovesMessage) : Except Error (List Move) := m.moves.mapM MoveMessage.move

end MovesMessage
end Wire
end MeshSharding
