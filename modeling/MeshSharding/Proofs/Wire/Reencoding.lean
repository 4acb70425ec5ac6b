import MeshSharding.Proofs.Wire.Acceptance
import MeshSharding.Proofs.Wire.Stored

/-! What is decoded is encoded again. Whatever bytes a reader accepts, the items in them are well
formed, and their own stream stands for the same items, though its bytes may be others. -/
namespace MeshSharding

/-- A factor has one type. -/
theorem Rule.existsUnique_type (r : Rule) {f : Nat} (h : f < r.factorCount) :
    ∃! type, f ∈ r.factorsOfType type := by
  have hx : r.factors[f]? = some r.factors[f] := List.getElem?_eq_getElem h
  refine ⟨r.factors[f].type, (Rule.mem_factorsOfType hx _).2 rfl, fun type htype => ?_⟩
  exact ((Rule.mem_factorsOfType hx type).1 htype).symm

namespace Wire

open Varint Fields

/-! ### The messages of accepted objects -/

namespace RuleMessage

/-- A factor is written once, however often it has been listed. -/
theorem Lists.byteCount_le {values : List Int64} {factors : List Nat} (h : Lists values factors)
    (hn : factors.Nodup) (n : Nat) :
    (ofWords n (factors.map ofSize)).byteCount ≤ (ofWords n values).byteCount := by
  obtain ⟨fs, rfl, hsub⟩ := h
  obtain ⟨listed, hperm, hlisted⟩ := List.subperm_of_subset hn hsub
  refine byteCount_ofBytes_mono n ?_
  rw [← ((hperm.map ofSize).flatMap_right _).length_eq]
  exact ((hlisted.map ofSize).flatMap _).length_le

theorem Accepts.byteCount_le {m : RuleMessage} {r : Rule} (h : m.Accepts r) :
    (ofRule r).fields.byteCount ≤ m.fields.byteCount := by
  have hreduction := h.reduction.byteCount_le (r.nodup_factorsOfType _) 4
  have hneed := h.needReplication.byteCount_le (r.nodup_factorsOfType _) 5
  have hpermutation := h.permutation.byteCount_le (r.nodup_factorsOfType _) 6
  have hblocked := h.blocked.byteCount_le (r.nodup_factorsWhere _) 7
  simp only [fields, byteCount_append, h.sizes, h.operands, h.results]
  simp only [ofRule, h.custom]
  omega

end RuleMessage

/-! ### Records -/

/-- A rule has one type for each of its factors, and blocks and maps to no others. Each axis of a mesh
has a name of its own and a size, neither of them empty, and the ids of the mesh, if it has any, are as
many as its devices, and differ. -/
def Item.IsWellFormed : Item → Prop
  | .mesh m => (m.axes.map (·.name)).Nodup ∧ (∀ axis ∈ m.axes, axis.name ≠ "" ∧ 0 < axis.size) ∧
    ∀ ids, m.deviceIds = some ids → m.deviceCount = .ok ids.length ∧ ids.Nodup
  | .rule r => (∀ f < r.factorCount, ∃! type, f ∈ r.factorsOfType type) ∧
    (∀ f ∈ r.blockedFactors, f < r.factorCount) ∧ r.MapsBelow
  | _ => True

namespace Record

theorem exists_of_message {α : Type} {read : Nat → Fields → Option α} {payload : Bytes} {m : α}
    (h : message read payload = .ok m) :
    ∃ fs, fs.byteCount ≤ payload.length ∧ read depthLimit fs = some m := by
  unfold message at h
  split at h
  · rename_i hread
    cases h
    obtain ⟨fs, hfs, hm⟩ := Option.bind_eq_some_iff.1 hread
    exact ⟨fs, byteCount_of_readFields hfs, hm⟩
  · cases h

theorem length_of_message {α : Type} {fields : α → Fields} {read : Nat → Fields → Option α}
    (hc : Compact fields read) {payload : Bytes} {m : α} (h : message read payload = .ok m) :
    2 * (fields m).byteCount ≤ 3 * payload.length := by
  obtain ⟨fs, hfs, hm⟩ := exists_of_message h
  have hcompact := hc hm
  omega

variable {r : Record} {item : Item}

/-- The item is one that has come out of the payload of the record. -/
structure Yields (r : Record) (item : Item) : Prop where
  storable : item.IsStorable
  wellFormed : item.IsWellFormed
  length_le : 2 * (ofItem item).payload.length ≤ 3 * r.payload.length
  factorCount_le : ∀ q, item = .rule q → q.factorCount ≤ r.payload.length

theorem yields_mesh {m : MeshMessage} {mesh : Mesh}
    (hm : message MeshMessage.read r.payload = .ok m) (h : m.mesh = .ok mesh) :
    r.Yields (.mesh mesh) := by
  obtain ⟨hstorable, rfl, hcount⟩ := MeshMessage.mesh_eq_ok h
  exact ⟨hstorable, ⟨mesh.names_nodup, fun axis _ => ⟨axis.name_ne_empty, axis.size_pos⟩,
    fun ids hids => ⟨hcount ids hids, mesh.deviceIds_nodup ids hids⟩⟩,
    length_of_message MeshMessage.compact hm, nofun⟩

/-- A sharding comes out of either version of its message. -/
theorem yields_sharding {read : Nat → Fields → Option ShardingMessage}
    (hc : Compact ShardingMessage.fields read) {m : ShardingMessage} {s : TensorSharding}
    (hm : message read r.payload = .ok m) (h : m.sharding = .ok s) : r.Yields (.sharding s) := by
  obtain ⟨hstorable, rfl⟩ := ShardingMessage.sharding_eq_ok h
  exact ⟨hstorable, trivial, length_of_message hc hm, nofun⟩

theorem yields_rule {m : RuleMessage} {q : Rule}
    (hm : message RuleMessage.read r.payload = .ok m) (h : m.rule = .ok q) :
    r.Yields (.rule q) := by
  obtain ⟨hstorable, haccepts⟩ := RuleMessage.rule_eq_ok h
  obtain ⟨fs, hfs, hread⟩ := exists_of_message hm
  have hcount : q.factorCount = m.sizes.length := by
    rw [← haccepts.sizes, RuleMessage.ofRule, List.length_map, Rule.sizes, List.length_map,
      Rule.factorCount]
  refine ⟨hstorable, ⟨fun f hf => q.existsUnique_type hf,
    fun f hf => Rule.lt_of_mem_factorsWhere hf, hstorable.2⟩, ?_, ?_⟩
  · exact Nat.le_trans (Nat.mul_le_mul_left 2 haccepts.byteCount_le)
      (length_of_message RuleMessage.compact hm)
  · rintro _ ⟨⟩
    rw [hcount]
    exact Nat.le_trans (RuleMessage.sizes_le hread) hfs

theorem yields_moves {m : MovesMessage} {ms : List Move}
    (hm : message MovesMessage.read r.payload = .ok m) (h : m.content = .ok ms) :
    r.Yields (.moves ms) := by
  obtain ⟨hstorable, rfl⟩ := MovesMessage.content_eq_ok h
  exact ⟨hstorable, trivial, length_of_message MovesMessage.compact hm, nofun⟩

theorem yields_of_content (h : r.content = .ok item) : r.Yields item := by
  unfold content at h
  split at h
  · obtain ⟨m, hm, h⟩ := bind_eq_ok_iff.1 h
    obtain ⟨mesh, hmesh, h⟩ := bind_eq_ok_iff.1 h
    cases h
    exact yields_mesh hm hmesh
  · split at h
    · split at h
      · obtain ⟨m, hm, h⟩ := bind_eq_ok_iff.1 h
        obtain ⟨s, hs, h⟩ := bind_eq_ok_iff.1 h
        cases h
        exact yields_sharding ShardingMessage.compact_first hm hs
      · obtain ⟨m, hm, h⟩ := bind_eq_ok_iff.1 h
        obtain ⟨s, hs, h⟩ := bind_eq_ok_iff.1 h
        cases h
        exact yields_sharding ShardingMessage.compact hm hs
    · split at h
      · obtain ⟨m, hm, h⟩ := bind_eq_ok_iff.1 h
        obtain ⟨q, hq, h⟩ := bind_eq_ok_iff.1 h
        cases h
        exact yields_rule hm hq
      · obtain ⟨m, hm, h⟩ := bind_eq_ok_iff.1 h
        obtain ⟨ms, hms, h⟩ := bind_eq_ok_iff.1 h
        cases h
        exact yields_moves hm hms

/-- The payload of a record is a part of the stream that the record has been read from. -/
theorem payload_le_of_readFrom {bytes rest : Bytes} (h : readFrom bytes = some (r, rest)) :
    r.payload.length ≤ bytes.length := by
  unfold readFrom at h
  split at h
  · rename_i content rest' hdelimited
    obtain ⟨q, hq, h⟩ := Option.map_eq_some_iff.1 h
    cases h
    obtain ⟨fs, hfs, hread⟩ := Option.bind_eq_some_iff.1 hq
    simp only [read, Option.bind_eq_bind, Option.bind_eq_some_iff, Option.pure_def,
      Option.some.injEq] at hread
    obtain ⟨kind, -, version, -, payload, hpayload, rfl⟩ := hread
    have hshare := byteCount_bytes_le (by decide) hpayload
    have hbound := fs.sum_share_le 4
    have hcontent := byteCount_of_readFields hfs
    have hbytes := length_of_readDelimited hdelimited
    have hle := length_le_byteCount_ofBytes 3 payload
    rw [length_delimited] at hbytes
    simp only [Finset.sum_range_succ] at hbound
    dsimp only at hbytes ⊢
    omega
  · cases h

/-- A record has at most five bytes besides its payload and the length of it. -/
theorem length_fields_ofItem_le (item : Item) :
    (ofItem item).fields.byteCount ≤ 4 + framed (ofItem item).payload.length := by
  have hkind : unsigned (ofItem item).kind.toInt64 < 128 := by
    cases item <;> (simp only [ofItem]; decide)
  have hversion : (ofItem item).version.toNat < 128 := by
    cases item with
    | sharding s =>
      simp only [ofItem]
      split <;> decide
    | _ => simp only [ofItem]; decide
  have hkindLe := byteCount_ofNumber_le (by decide : 1 < 16) (unsigned (ofItem item).kind.toInt64)
  have hversionLe := byteCount_ofNumber_le (by decide : 2 < 16) (ofItem item).version.toNat
  have hpayloadLe := byteCount_ofBytes_le (by decide : 3 < 16) (ofItem item).payload
  rw [width_of_lt hkind] at hkindLe
  rw [width_of_lt hversion] at hversionLe
  simp only [fields, byteCount_append, ofWord]
  omega

/-- An item that has come out of a record in memory has a record that can be read and gives the item
again. -/
theorem Yields.item?_ofItem (h : r.Yields item) (hl : r.payload.length < signedBound) :
    (writeFields (ofItem item).fields).length < wordBound ∧
      (ofItem item).item? = .ok (some item) := by
  have hlength := h.length_le
  have hfields := length_fields_ofItem_le item
  have hwidth := width_le (ofItem item).payload.length
  -- A word counts half as much again as a signed word does, and some bytes more.
  have hword : (ofItem item).payload.length < wordBound := by
    unfold signedBound at hl
    unfold wordBound
    omega
  refine ⟨?_, ?_⟩
  · unfold byteCount framed at hfields
    unfold signedBound at hl
    unfold wordBound
    omega
  · have hbound (q : Rule) (hq : item = .rule q) : q.factorCount ≤ signedBound :=
      Nat.le_of_lt (Nat.lt_of_le_of_lt (h.factorCount_le q hq) hl)
    rw [item?, if_pos (isKnown_ofItem item), content_ofItem_eq hword,
      Item.reread_eq_self h.storable hword hbound]
    rfl

end Record

/-! ### Streams -/

/-- Whatever has been decoded is well formed, and its own encoding is decoded to it. A signed word
counts the bytes of the stream, as it does for every list of bytes in memory. -/
theorem decode_encode_of_decode {bytes : Bytes} {items : List Item}
    (hl : bytes.length < signedBound) (h : decode bytes = .ok items) :
    (∀ item ∈ items, item.IsWellFormed) ∧ decode (encode items) = .ok items := by
  replace h := decodes_of_decode h
  induction h with
  | nil => exact ⟨nofun, by rw [encode, List.flatMap_nil, decode, if_pos rfl]⟩
  | cons hread hitem _ ih =>
    have hshorter := Record.readFrom_shorter hread
    obtain ⟨hwellFormed, hrest⟩ := ih (Nat.lt_trans hshorter hl)
    unfold Record.item? at hitem
    split at hitem
    · obtain ⟨found, hfound, hitem⟩ := bind_eq_ok_iff.1 hitem
      cases hitem
      have hyields := Record.yields_of_content hfound
      obtain ⟨hlength, hfoundItem⟩ := hyields.item?_ofItem
        (Nat.lt_of_le_of_lt (Record.payload_le_of_readFrom hread) hl)
      refine ⟨List.forall_mem_cons.2 ⟨hyields.wellFormed, hwellFormed⟩, ?_⟩
      rw [Option.toList_some, List.singleton_append, encode_cons, decode_write_append hlength,
        hfoundItem, hrest]
      rfl
    · cases hitem
      exact ⟨hwellFormed, hrest⟩

/-- A rule without a version whose numbers are not packed and come out of order, with a factor that
is blocked twice, and a mesh whose ids are cut in two. -/
def looseBytes : Bytes :=
  Record.write ⟨3, 0, writeFields [⟨9, .varint 5⟩, ⟨7, .varint 1⟩, ⟨7, .varint 1⟩, ⟨4, .varint 1⟩,
    ⟨1, .varint 8⟩, ⟨2, .bytes [0x0a, 4, 0x0a, 2, 1, 0]⟩, ⟨1, .varint 16⟩]⟩ ++
  Record.write ⟨1, 1, writeFields [⟨2, .varint 3⟩, ⟨1, .bytes [0x10, 2, 0x0a, 1, 0x78]⟩,
    ⟨2, .bytes [1]⟩]⟩

theorem looseName_ne_empty : "x" ≠ "" := by decide

def looseItems : List Item :=
  [.rule ⟨[⟨8, .passThrough, false⟩, ⟨16, .reduction, true⟩], [⟨[[1, 0]]⟩], [], false⟩,
    .mesh ⟨[⟨"x", 2, looseName_ne_empty, Nat.two_pos⟩], some [3, 1], by decide, by decide, by decide⟩]

theorem decode_encode_of_decode_looseBytes :
    looseBytes.length < signedBound ∧ decode looseBytes = .ok looseItems ∧
      encode looseItems ≠ looseBytes ∧ (∀ item ∈ looseItems, item.IsWellFormed) ∧
      decode (encode looseItems) = .ok looseItems := by
  have hl : looseBytes.length < signedBound := by decide +kernel
  have hdecode : decode looseBytes = .ok looseItems := by decide +kernel
  have hne : encode looseItems ≠ looseBytes := by decide +kernel
  exact ⟨hl, hdecode, hne, decode_encode_of_decode hl hdecode⟩

end Wire
end MeshSharding
