import MeshSharding.Wire.Record
import MeshSharding.Proofs.Wire.Content
import MeshSharding.Proofs.Wire.Length
import MeshSharding.Proofs.Wire.Message

/-! Streams of records round trip. Each item comes back from its record, whatever the version of
its message, and each record from the stream. -/
namespace MeshSharding
namespace Wire

variable {item : Item} {items : List Item}

/-- A stream stores sizes and numbers up to the largest signed word. -/
def Item.IsStorable : Item → Prop
  | .mesh m => m.IsStorable
  | .sharding s => s.IsStorable
  | .rule r => r.IsStorable
  | .moves ms => ∀ m ∈ ms, m.IsStorable

instance : DecidablePred Item.IsStorable
  | .mesh m => inferInstanceAs (Decidable m.IsStorable)
  | .sharding s => inferInstanceAs (Decidable s.IsStorable)
  | .rule r => inferInstanceAs (Decidable r.IsStorable)
  | .moves ms => inferInstanceAs (Decidable (∀ m ∈ ms, m.IsStorable))

/-! ### Counts of bytes -/

/-- A rule has no more factors than its message has bytes. -/
theorem RuleMessage.factorCount_le (r : Rule) :
    r.factorCount ≤ (writeFields (ofRule r).fields).length := by
  have hle := length_le_ofWords 1 (ofRule r).sizes
  have hlength : (ofRule r).sizes.length = r.factorCount := by
    simp [ofRule, Rule.sizes, Rule.factorCount]
  simp only [fields, writeFields_append, List.length_append]
  omega

theorem MeshMessage.deviceIds_le (m : MeshMessage) :
    m.deviceIds.length ≤ (writeFields m.fields).length := by
  have hle := length_le_ofWords 2 m.deviceIds
  simp only [fields, writeFields_append, List.length_append]
  omega

/-- What the message of an item stands for. -/
def Item.reread : Item → Except Error Item
  | .mesh m => return .mesh (← (MeshMessage.ofMesh m).mesh)
  | .sharding s => return .sharding (← (ShardingMessage.ofSharding s).sharding)
  | .rule r => return .rule (← (RuleMessage.ofRule r).rule)
  | .moves ms => return .moves (← (MovesMessage.ofMoves ms).content)

theorem Item.reread_eq_self (h : item.IsStorable)
    (hl : (Record.ofItem item).payload.length < wordBound)
    (hcount : ∀ r, item = .rule r → r.factorCount ≤ signedBound) : item.reread = .ok item := by
  cases item with
  | mesh m =>
    rw [reread, MeshMessage.mesh_ofMesh h (Nat.lt_of_le_of_lt (MeshMessage.deviceIds_le _) hl)]
    rfl
  | sharding s =>
    rw [reread, ShardingMessage.sharding_ofSharding h]
    rfl
  | rule r =>
    rw [reread, RuleMessage.rule_ofRule h (hcount r rfl)]
    rfl
  | moves ms =>
    rw [reread, MovesMessage.content_ofMoves h]
    rfl

/-! ### One record -/

namespace Record

theorem message_writeFields {α : Type} {fields : α → Fields} {read : Nat → Fields → Option α}
    {x : α} (hwritable : (fields x).Writable)
    (hread : ∀ limit, read limit (fields x) = some x)
    (hl : (writeFields (fields x)).length < wordBound) :
    message read (writeFields (fields x)) = .ok x := by
  rw [message, Wire.readFields_writeFields depthLimit (hwritable hl), Option.bind_some, hread]

theorem message_of_roundTrips {α : Type} {fields : α → Fields}
    {read : Nat → Fields → Option α} (h : RoundTrips fields read) {x : α}
    (hl : (writeFields (fields x)).length < wordBound) :
    message read (writeFields (fields x)) = .ok x :=
  message_writeFields (h.writable x) (fun limit => h.read_fields limit x hl) hl

/-- The content of the record of an item is what its message stands for, whatever the version of the
message. -/
theorem content_ofItem_eq (hl : (ofItem item).payload.length < wordBound) :
    (ofItem item).content = item.reread := by
  cases item with
  | mesh m =>
    have hmessage := message_of_roundTrips MeshMessage.roundTrips hl
    simp only [content, ofItem, hmessage]
    rfl
  | sharding s =>
    cases hs : s.unreduced.isEmpty with
    | true =>
      have hnil : (ShardingMessage.ofSharding s).unreduced = [] := by
        simpa [ShardingMessage.ofSharding, AxisMessage.ofAxes] using hs
      have hmessage := message_writeFields (ShardingMessage.writable_fields _)
        (fun limit => ShardingMessage.readFirst_fields limit hnil hl) hl
      simp only [content, ofItem, hs, hmessage]
      rfl
    | false =>
      have hmessage := message_of_roundTrips ShardingMessage.roundTrips hl
      simp only [content, ofItem, hs, hmessage]
      rfl
  | rule r =>
    have hmessage := message_of_roundTrips RuleMessage.roundTrips hl
    simp only [content, ofItem, hmessage]
    rfl
  | moves ms =>
    have hmessage := message_of_roundTrips MovesMessage.roundTrips hl
    simp only [content, ofItem, hmessage]
    rfl

/-- The record of an item that can be stored has this item as its content. -/
theorem content_ofItem (h : item.IsStorable) (hl : (ofItem item).payload.length < signedBound) :
    (ofItem item).content = .ok item := by
  have hword : (ofItem item).payload.length < wordBound := Nat.lt_trans hl (by decide)
  rw [content_ofItem_eq hword, Item.reread_eq_self h hword]
  rintro r rfl
  exact Nat.le_of_lt (Nat.lt_of_le_of_lt (RuleMessage.factorCount_le r) hl)

theorem isKnown_ofItem (item : Item) : (ofItem item).isKnown = true := by
  cases item with
  | sharding s => cases hs : s.unreduced.isEmpty <;> simp [isKnown, latest?, ofItem, hs]
  | _ => rfl

theorem item?_ofItem (h : item.IsStorable) (hl : (ofItem item).payload.length < signedBound) :
    (ofItem item).item? = .ok (some item) := by
  rw [item?, if_pos (isKnown_ofItem item), content_ofItem h hl]
  rfl

/-- The record in front of a stream is read back. -/
theorem readFrom_write_append {r : Record} (rest : Bytes)
    (hl : (writeFields r.fields).length < wordBound) :
    readFrom (r.write ++ rest) = some (r, rest) := by
  rw [readFrom, write, readDelimited_delimited_append rest hl]
  simp only [roundTrips.readFields_writeFields _ hl, Option.bind_some,
    roundTrips.read_fields _ r hl, Option.map_some]

theorem payload_length_le (r : Record) :
    r.payload.length ≤ (writeFields r.fields).length := by
  have hle := Fields.length_le_byteCount_ofBytes 3 r.payload
  rw [← Fields.byteCount, fields, Fields.byteCount_append]
  omega

theorem write_ne_nil (r : Record) : r.write ≠ [] := by
  simp [write, delimited, Varint.write_ne_nil]

end Record

/-! ### Streams -/

theorem encode_cons (item : Item) (items : List Item) :
    encode (item :: items) = (Record.ofItem item).write ++ encode items := rfl

theorem decode_of_readFrom {bytes rest : Bytes} {r : Record}
    (h : Record.readFrom bytes = some (r, rest)) :
    decode bytes = do return (← r.item?).toList ++ (← decode rest) := by
  have hne : bytes ≠ [] := by
    rintro rfl
    cases h
  rw [decode, if_neg hne]
  split
  · rename_i hread
    rw [h] at hread
    cases hread
  · rename_i hread
    rw [h] at hread
    cases hread
    rfl

theorem decode_of_readFrom_eq_none {bytes : Bytes} (hne : bytes ≠ [])
    (h : Record.readFrom bytes = none) : decode bytes = .error (.decode .malformed) := by
  rw [decode, if_neg hne]
  split
  · rfl
  · rename_i hread
    rw [h] at hread
    cases hread

theorem decode_write_append {r : Record} {rest : Bytes}
    (hl : (writeFields r.fields).length < wordBound) :
    decode (r.write ++ rest) = do return (← r.item?).toList ++ (← decode rest) :=
  decode_of_readFrom (Record.readFrom_write_append rest hl)

/-- A stream and what is decoded from it: nothing from the empty one, else the item of the record in
front, if the reader knows it, and what is decoded from the rest. -/
inductive Decodes : Bytes → List Item → Prop
  | nil : Decodes [] []
  | cons {bytes rest : Bytes} {r : Record} {item : Option Item} {items : List Item}
    (hread : Record.readFrom bytes = some (r, rest)) (hitem : r.item? = .ok item)
    (hrest : Decodes rest items) : Decodes bytes (item.toList ++ items)

theorem decodes_of_decode {bytes : Bytes} (h : decode bytes = .ok items) :
    Decodes bytes items := by
  induction hlength : bytes.length using Nat.strong_induction_on generalizing bytes items with
  | _ n ih =>
    by_cases hnil : bytes = []
    · subst hnil
      rw [decode, if_pos rfl] at h
      cases h
      exact .nil
    · cases hread : Record.readFrom bytes with
      | none =>
        rw [decode_of_readFrom_eq_none hnil hread] at h
        cases h
      | some p =>
        obtain ⟨r, rest⟩ := p
        rw [decode_of_readFrom hread] at h
        obtain ⟨item, hitem, h⟩ := bind_eq_ok_iff.1 h
        obtain ⟨tail, htail, h⟩ := bind_eq_ok_iff.1 h
        cases h
        exact .cons hread hitem (ih _ (hlength ▸ Record.readFrom_shorter hread) htail rfl)

/-- What is encoded is decoded again. A signed word counts the bytes of the stream, as it does for
every list of bytes in memory. -/
theorem decode_encode (hs : ∀ item ∈ items, item.IsStorable)
    (hl : (encode items).length < signedBound) : decode (encode items) = .ok items := by
  induction items with
  | nil => simp [encode, decode]
  | cons item items ih =>
    rw [List.forall_mem_cons] at hs
    have hcons : encode (item :: items) = (Record.ofItem item).write ++ encode items := rfl
    rw [hcons, List.length_append, Record.write, delimited, List.length_append] at hl
    have hrecord : (writeFields (Record.ofItem item).fields).length < signedBound := by omega
    have hitem := Record.item?_ofItem hs.1
      (Nat.lt_of_le_of_lt (Record.ofItem item).payload_length_le hrecord)
    rw [hcons, decode_write_append (Nat.lt_trans hrecord (by decide)), hitem,
      ih hs.2 (by omega)]
    rfl

def rackMesh : Mesh := .grid 4 2 (by decide) (by decide)

/-- Items of all kinds, with shardings in both versions of their message. -/
def mixedItems : List Item :=
  [.mesh rackMesh,
    .sharding ⟨"mesh", [⟨[.full "x"], true, none⟩, ⟨[], false, none⟩], [.full "y"], []⟩,
    .sharding ⟨"mesh", [⟨[.sub "x" 1 2], true, none⟩, ⟨[.full "y"], false, some 1⟩], [],
      [.sub "x" 2 2]⟩,
    .rule ⟨[⟨8, .passThrough, false⟩, ⟨16, .passThrough, true⟩, ⟨32, .reduction, false⟩],
      [⟨[[0], [2]]⟩, ⟨[[2], [1]]⟩], [⟨[[0], [1]]⟩], true⟩,
    .moves [⟨[.full "x"], 0, 2⟩]]

theorem decode_encode_mixedItems :
    (∀ item ∈ mixedItems, item.IsStorable) ∧ (encode mixedItems).length < signedBound ∧
      decode (encode mixedItems) = .ok mixedItems := by
  have hs : ∀ item ∈ mixedItems, item.IsStorable := by decide
  have hl : (encode mixedItems).length < signedBound := by decide +kernel
  exact ⟨hs, hl, decode_encode hs hl⟩

end Wire
end MeshSharding
