import MeshSharding.Wire.Value

/-! The messages in which meshes, shardings, rules and moves are stored. Each is given by
the numbers of its fields, once for writing and once for reading. -/
namespace MeshSharding
namespace Wire

structure WindowMessage where
  preSize : Int64
  size : Int64
deriving DecidableEq

namespace WindowMessage

def fields (m : WindowMessage) : Fields := .ofWord 1 m.preSize ++ .ofWord 2 m.size

def read (_ : Nat) (fs : Fields) : Option WindowMessage := do
  return ⟨← fs.word 1, ← fs.word 2⟩

end WindowMessage

structure AxisMessage where
  name : String
  window : Option WindowMessage
deriving DecidableEq

namespace AxisMessage

def fields (m : AxisMessage) : Fields :=
  .ofString 1 m.name ++ .ofMessages 2 WindowMessage.fields m.window.toList

def read (limit : Nat) (fs : Fields) : Option AxisMessage := do
  return ⟨← fs.string 1, ← fs.message? WindowMessage.read limit 2⟩

end AxisMessage

structure DimMessage where
  axes : List AxisMessage
  closed : Bool
  priority : Option Int64
deriving DecidableEq

namespace DimMessage

def fields (m : DimMessage) : Fields :=
  .ofMessages 1 AxisMessage.fields m.axes ++ .ofBool 2 m.closed
    ++ .ofOptionalWord 3 m.priority

def read (limit : Nat) (fs : Fields) : Option DimMessage := do
  return ⟨← fs.messages AxisMessage.read limit 1, ← fs.bool 2, ← fs.optionalWord 3⟩

end DimMessage

structure ShardingMessage where
  meshName : String
  dims : List DimMessage
  replicated : List AxisMessage
  unreduced : List AxisMessage
deriving DecidableEq

namespace ShardingMessage

def fields (m : ShardingMessage) : Fields :=
  .ofString 1 m.meshName ++ .ofMessages 2 DimMessage.fields m.dims
    ++ .ofMessages 3 AxisMessage.fields m.replicated
    ++ .ofMessages 4 AxisMessage.fields m.unreduced

def read (limit : Nat) (fs : Fields) : Option ShardingMessage := do
  return ⟨← fs.string 1, ← fs.messages DimMessage.read limit 2,
    ← fs.messages AxisMessage.read limit 3, ← fs.messages AxisMessage.read limit 4⟩

/-- The first version of the message has no unreduced axes and does not know their field. -/
def readFirst (limit : Nat) (fs : Fields) : Option ShardingMessage :=
  read limit (fs.filter fun f => f.number ≠ 4)

end ShardingMessage

structure MeshAxisMessage where
  name : String
  size : Int64
deriving DecidableEq

namespace MeshAxisMessage

def fields (m : MeshAxisMessage) : Fields := .ofString 1 m.name ++ .ofWord 2 m.size

def read (_ : Nat) (fs : Fields) : Option MeshAxisMessage := do
  return ⟨← fs.string 1, ← fs.word 2⟩

end MeshAxisMessage

structure MeshMessage where
  axes : List MeshAxisMessage
  /-- Empty if the devices have their row-major numbers as ids. -/
  deviceIds : List Int64
deriving DecidableEq

namespace MeshMessage

def fields (m : MeshMessage) : Fields :=
  .ofMessages 1 MeshAxisMessage.fields m.axes ++ .ofWords 2 m.deviceIds

def read (limit : Nat) (fs : Fields) : Option MeshMessage := do
  return ⟨← fs.messages MeshAxisMessage.read limit 1, ← fs.words 2⟩

end MeshMessage

/-- The factors of one dimension. -/
structure DimMappingMessage where
  factors : List Int64
deriving DecidableEq

namespace DimMappingMessage

def fields (m : DimMappingMessage) : Fields := .ofWords 1 m.factors

def read (_ : Nat) (fs : Fields) : Option DimMappingMessage := do return ⟨← fs.words 1⟩

end DimMappingMessage

structure MappingMessage where
  dims : List DimMappingMessage
deriving DecidableEq

namespace MappingMessage

def fields (m : MappingMessage) : Fields := .ofMessages 1 DimMappingMessage.fields m.dims

def read (limit : Nat) (fs : Fields) : Option MappingMessage := do
  return ⟨← fs.messages DimMappingMessage.read limit 1⟩

end MappingMessage

/-- Factors without an entry in one of the lists of factors are passed through and not
blocked. -/
structure RuleMessage where
  sizes : List Int64
  operands : List MappingMessage
  results : List MappingMessage
  reduction : List Int64
  needReplication : List Int64
  permutation : List Int64
  blocked : List Int64
  custom : Bool
deriving DecidableEq

namespace RuleMessage

def fields (m : RuleMessage) : Fields :=
  .ofWords 1 m.sizes ++ .ofMessages 2 MappingMessage.fields m.operands
    ++ .ofMessages 3 MappingMessage.fields m.results ++ .ofWords 4 m.reduction
    ++ .ofWords 5 m.needReplication ++ .ofWords 6 m.permutation ++ .ofWords 7 m.blocked
    ++ .ofBool 8 m.custom

def read (limit : Nat) (fs : Fields) : Option RuleMessage := do
  return ⟨← fs.words 1, ← fs.messages MappingMessage.read limit 2,
    ← fs.messages MappingMessage.read limit 3, ← fs.words 4, ← fs.words 5, ← fs.words 6,
    ← fs.words 7, ← fs.bool 8⟩

end RuleMessage

structure MoveMessage where
  axes : List AxisMessage
  source : Int64
  target : Int64
deriving DecidableEq

namespace MoveMessage

def fields (m : MoveMessage) : Fields :=
  .ofMessages 1 AxisMessage.fields m.axes ++ .ofWord 2 m.source ++ .ofWord 3 m.target

def read (limit : Nat) (fs : Fields) : Option MoveMessage := do
  return ⟨← fs.messages AxisMessage.read limit 1, ← fs.word 2, ← fs.word 3⟩

end MoveMessage

structure MovesMessage where
  moves : List MoveMessage
deriving DecidableEq

namespace MovesMessage

def fields (m : MovesMessage) : Fields := .ofMessages 1 MoveMessage.fields m.moves

def read (limit : Nat) (fs : Fields) : Option MovesMessage := do
  return ⟨← fs.messages MoveMessage.read limit 1⟩

end MovesMessage

/-- The envelope of an item: which item it is, the version of its message, and the bytes
of the message. -/
structure Record where
  kind : Int32
  version : UInt32
  payload : Bytes
deriving DecidableEq

namespace Record

def fields (r : Record) : Fields :=
  .ofWord 1 r.kind.toInt64 ++ .ofNumber 2 r.version.toNat ++ .ofBytes 3 r.payload

/-- Of a number only the bits that fit are taken. -/
def read (_ : Nat) (fs : Fields) : Option Record := do
  return ⟨.ofNat (← fs.number 1), .ofNat (← fs.number 2), ← fs.bytes 3⟩

end Record
end Wire
end MeshSharding
