import MeshSharding.Wire.Content

/-! Streams of records. Each record holds one item; a reader passes over the records whose
kind it does not know and over those of a version that is newer than the one it knows, so
it can read streams that a later library has written. -/
namespace MeshSharding
namespace Wire

inductive Item
  | mesh (m : Mesh)
  | sharding (s : TensorSharding)
  | rule (r : Rule)
  | moves (ms : List Move)
deriving DecidableEq

/-- How deep messages and groups may be nested. -/
def depthLimit : Nat := 100

namespace Record

/-- A sharding without unreduced axes is written in the first version of its message. -/
def ofItem : Item → Record
  | .mesh m => ⟨1, 1, writeFields (MeshMessage.ofMesh m).fields⟩
  | .sharding s =>
    ⟨2, if s.unreduced.isEmpty then 1 else 2, writeFields (ShardingMessage.ofSharding s).fields⟩
  | .rule r => ⟨3, 1, writeFields (RuleMessage.ofRule r).fields⟩
  | .moves ms => ⟨4, 1, writeFields (MovesMessage.ofMoves ms).fields⟩

/-- The message in a payload. -/
def message {α : Type} (read : Nat → Fields → Option α) (payload : Bytes) : Except Error α :=
  match (readFields depthLimit payload).bind (read depthLimit) with
  | some m => .ok m
  | none => .error (.decode .malformed)

/-- The newest version of a kind of record. -/
def latest? (kind : Int32) : Option UInt32 :=
  if kind = 1 then some 1
  else if kind = 2 then some 2
  else if kind = 3 then some 1
  else if kind = 4 then some 1
  else none

/-- Whether the reader knows the kind and the version of the record. -/
def isKnown (r : Record) : Bool :=
  match latest? r.kind with
  | some version => r.version ≤ version
  | none => false

/-- The item of a record that the reader knows. -/
def content (r : Record) : Except Error Item := do
  if r.kind = 1 then return .mesh (← (← message MeshMessage.read r.payload).mesh)
  else if r.kind = 2 then
    if r.version ≤ 1 then
      return .sharding (← (← message ShardingMessage.readFirst r.payload).sharding)
    else return .sharding (← (← message ShardingMessage.read r.payload).sharding)
  else if r.kind = 3 then return .rule (← (← message RuleMessage.read r.payload).rule)
  else return .moves (← (← message MovesMessage.read r.payload).content)

def item? (r : Record) : Except Error (Option Item) :=
  if r.isKnown then return some (← r.content) else return none

/-- A record in a stream stands behind its length. -/
def write (r : Record) : Bytes := delimited (writeFields r.fields)

/-- The record in front of a stream; it is itself nested in the stream. -/
def readFrom (bytes : Bytes) : Option (Record × Bytes) :=
  match readDelimited bytes with
  | some (content, rest) =>
    ((readFields (depthLimit - 1) content).bind (read (depthLimit - 1))).map fun r => (r, rest)
  | none => none

theorem readFrom_shorter {bytes : Bytes} {p : Record × Bytes} (h : readFrom bytes = some p) :
    p.2.length < bytes.length := by
  unfold readFrom at h
  split at h
  · rename_i hr
    obtain ⟨r, _, rfl⟩ := Option.map_eq_some_iff.1 h
    exact readDelimited_shorter hr
  · simp at h

end Record

def encode (items : List Item) : Bytes := items.flatMap fun item => (Record.ofItem item).write

def decode (bytes : Bytes) : Except Error (List Item) :=
  if bytes = [] then .ok []
  else
    match h : Record.readFrom bytes with
    | none => .error (.decode .malformed)
    | some (record, rest) => do
      have := Record.readFrom_shorter h
      let item ← record.item?
      let items ← decode rest
      return item.toList ++ items
termination_by bytes.length

end Wire
end MeshSharding
