import MeshSharding.Proofs.Wire.Stored
import MeshSharding.Proofs.Wire.Stream

/-! Streams of which the end is missing. No record begins with another one, so what is left of a
record cannot be read, wherever it is cut: in its length, between its fields or within a message in
its payload. Only a cut between two records goes unnoticed, and then no other record is touched. -/
namespace MeshSharding

/-- Whatever goes wrong, it is the bytes that cannot be decoded. -/
def OnlyDecode {α : Type} (x : Except Error α) : Prop :=
  ∀ e, x = .error e → ∃ defect, e = .decode defect

namespace OnlyDecode

theorem ok {α : Type} (a : α) : OnlyDecode (.ok a) := nofun

theorem error {α : Type} (defect : DecodeDefect) :
    OnlyDecode (.error (.decode defect) : Except Error α) := by
  rintro _ ⟨⟩
  exact ⟨defect, rfl⟩

theorem bind {α β : Type} {x : Except Error α} {f : α → Except Error β} (hx : OnlyDecode x)
    (hf : ∀ a, OnlyDecode (f a)) : OnlyDecode (x >>= f) := by
  cases x with
  | error e =>
    rintro _ ⟨⟩
    exact hx e rfl
  | ok a => exact hf a

theorem mapM {α β : Type} {f : α → Except Error β} (hf : ∀ a, OnlyDecode (f a)) (l : List α) :
    OnlyDecode (l.mapM f) := by
  induction l with
  | nil => exact ok []
  | cons a rest ih =>
    rw [List.mapM_cons]
    exact (hf a).bind fun b => ih.bind fun bs => ok (b :: bs)

theorem foldlM {α β : Type} {f : β → α → Except Error β} (hf : ∀ b a, OnlyDecode (f b a))
    (l : List α) (b : β) : OnlyDecode (l.foldlM f b) := by
  induction l generalizing b with
  | nil => exact ok b
  | cons a rest ih =>
    rw [List.foldlM_cons]
    exact (hf b a).bind fun b => ih b

end OnlyDecode

namespace Wire

/-! ### Why an item is not read back -/

theorem onlyDecode_size (field : String) (value : Int64) : OnlyDecode (size field value) := by
  unfold size
  split
  · exact .ok _
  · exact .error _

namespace RuleMessage

theorem onlyDecode_factor (count : Nat) (field : String) (value : Int64) :
    OnlyDecode (factor count field value) := by
  refine (onlyDecode_size field value).bind fun f => ?_
  split
  · exact .ok f
  · exact .error _

theorem onlyDecode_giveType (field : String) (type : FactorType) (r : Rule) (value : Int64) :
    OnlyDecode (giveType field type r value) := by
  refine (onlyDecode_factor _ field value).bind fun f => ?_
  split
  · exact .ok _
  · exact .error _

theorem onlyDecode_block (r : Rule) (value : Int64) : OnlyDecode (block r value) :=
  (onlyDecode_factor _ _ value).bind fun _ => .ok _

theorem onlyDecode_mappings (count : Nat) (ms : List MappingMessage) :
    OnlyDecode (mappings count ms) := by
  have hmapping (m : MappingMessage) : OnlyDecode m.mapping :=
    (OnlyDecode.mapM (fun dim => .mapM (onlyDecode_size _) _) _).bind fun _ => .ok _
  refine (OnlyDecode.mapM hmapping ms).bind fun mapped => ?_
  split
  · exact .error _
  · exact .ok mapped

theorem onlyDecode_rule (m : RuleMessage) : OnlyDecode m.rule :=
  (OnlyDecode.mapM (onlyDecode_size _) _).bind fun _ =>
    (OnlyDecode.foldlM (onlyDecode_giveType _ _) _ _).bind fun _ =>
    (OnlyDecode.foldlM (onlyDecode_giveType _ _) _ _).bind fun _ =>
    (OnlyDecode.foldlM (onlyDecode_giveType _ _) _ _).bind fun _ =>
    (OnlyDecode.foldlM onlyDecode_block _ _).bind fun _ =>
    (onlyDecode_mappings _ _).bind fun _ => (onlyDecode_mappings _ _).bind fun _ => .ok _

end RuleMessage

/-- Of the items, only rules whose mappings have other factors than theirs are not read back. -/
theorem Item.onlyDecode_reread {item : Item}
    (hl : (Record.ofItem item).payload.length < signedBound) : OnlyDecode item.reread := by
  cases item with
  | mesh m =>
    obtain ⟨n, hn⟩ := MeshMessage.exists_mesh_ofMesh
      (Nat.lt_of_le_of_lt (MeshMessage.deviceIds_le _) hl)
    rw [reread, hn]
    exact .ok _
  | sharding s =>
    rw [reread, ShardingMessage.sharding_ofSharding_eq]
    exact .ok _
  | rule r => exact (RuleMessage.onlyDecode_rule _).bind fun _ => .ok _
  | moves ms =>
    rw [reread, MovesMessage.content_ofMoves_eq]
    exact .ok _

namespace Record

theorem onlyDecode_item?_ofItem {item : Item} (hl : (ofItem item).payload.length < signedBound) :
    OnlyDecode (ofItem item).item? := by
  rw [item?, if_pos (isKnown_ofItem item), content_ofItem_eq (Nat.lt_trans hl (by decide))]
  exact (Item.onlyDecode_reread hl).bind fun _ => .ok _

/-! ### Cuts -/

/-- What is left of a record is none, since a record that were read from it would be read from the
whole record as well and leave some of it over. -/
theorem readFrom_of_isPrefix {r : Record} {p : Bytes}
    (hl : (writeFields r.fields).length < wordBound) (hp : p <+: r.write) (hne : p ≠ r.write) :
    readFrom p = none := by
  obtain ⟨missing, hmissing⟩ := hp
  cases hread : readFrom p with
  | none => rfl
  | some q =>
    have hwhole := readFrom_append missing hread
    rw [hmissing, ← List.append_nil r.write, readFrom_write_append [] hl, Option.some.injEq,
      Prod.mk.injEq, eq_comm (a := []), List.append_eq_nil_iff] at hwhole
    rw [hwhole.2.2, List.append_nil] at hmissing
    exact absurd hmissing hne

end Record

/-- One of the records of the items ends behind the first `n` bytes of their stream, or the first
record starts there. -/
def IsBoundary (items : List Item) (n : Nat) : Prop :=
  ∃ k ≤ items.length, n = (encode (items.take k)).length

instance (items : List Item) (n : Nat) : Decidable (IsBoundary items n) :=
  inferInstanceAs (Decidable (∃ k ≤ items.length, n = (encode (items.take k)).length))

/-- The items whose records end among the first `n` bytes of their stream. -/
def complete : Nat → List Item → List Item
  | _, [] => []
  | n, item :: items =>
    let size := (Record.ofItem item).write.length
    if size ≤ n then item :: complete (n - size) items else []

variable {item : Item} {items : List Item} {p : Bytes}

theorem isPrefix_encode_take (items : List Item) (k : Nat) :
    encode (items.take k) <+: encode items := by
  refine ⟨encode (items.drop k), ?_⟩
  rw [encode, encode, ← List.flatMap_append, List.take_append_drop]
  rfl

theorem complete_length_encode_take {k : Nat} (hk : k ≤ items.length) :
    complete (encode (items.take k)).length items = items.take k := by
  induction k generalizing items with
  | zero =>
    cases items with
    | nil => rfl
    | cons item items => simp [complete, encode, Record.write_ne_nil]
  | succ k ih =>
    cases items with
    | nil => cases hk
    | cons item items =>
      rw [List.take_succ_cons, encode_cons, complete, List.length_append,
        if_pos (Nat.le_add_right _ _), Nat.add_sub_cancel_left, ih (Nat.le_of_succ_le_succ hk)]

/-- The first bytes of a stream up to a boundary are the records that are complete by then. -/
theorem eq_encode_complete (hp : p <+: encode items) (h : IsBoundary items p.length) :
    p = encode (complete p.length items) := by
  obtain ⟨k, hk, hlength⟩ := h
  rw [hlength, complete_length_encode_take hk]
  exact (List.prefix_of_prefix_length_le hp (isPrefix_encode_take items k)
    (Nat.le_of_eq hlength)).eq_of_length hlength

/-- The first bytes of a stream end within its first record or behind it. -/
theorem eq_append_of_isPrefix (hp : p <+: encode (item :: items)) :
    (p <+: (Record.ofItem item).write ∧ p ≠ (Record.ofItem item).write) ∨
      ∃ q, p = (Record.ofItem item).write ++ q ∧ q <+: encode items := by
  have hwrite : (Record.ofItem item).write <+: encode (item :: items) := List.prefix_append _ _
  rcases List.prefix_or_prefix_of_prefix hwrite hp with ⟨q, rfl⟩ | h
  · exact .inr ⟨q, rfl, (List.prefix_append_right_inj _).1 hp⟩
  · by_cases heq : p = (Record.ofItem item).write
    · exact .inr ⟨[], by simpa using heq, List.nil_prefix⟩
    · exact .inl ⟨h, heq⟩

/-- A cut within a record is noticed, unless a record in front of it is not read back. -/
theorem exists_decode_eq_error (hl : (encode items).length < signedBound) (hp : p <+: encode items)
    (hcut : ¬ IsBoundary items p.length) : ∃ defect, decode p = .error (.decode defect) := by
  induction items generalizing p with
  | nil => exact absurd ⟨0, Nat.le_refl 0, congrArg List.length (List.prefix_nil.1 hp)⟩ hcut
  | cons item items ih =>
    rw [encode_cons, List.length_append, Record.write, delimited, List.length_append] at hl
    have hrecord : (writeFields (Record.ofItem item).fields).length < wordBound :=
      Nat.lt_trans (by omega : _ < signedBound) (by decide)
    have hpayload := (Record.ofItem item).payload_length_le
    rcases eq_append_of_isPrefix hp with ⟨hpart, hne⟩ | ⟨q, rfl, hq⟩
    · have hnil : p ≠ [] := fun hnil => hcut ⟨0, Nat.zero_le _, congrArg List.length hnil⟩
      exact ⟨_, decode_of_readFrom_eq_none hnil (Record.readFrom_of_isPrefix hrecord hpart hne)⟩
    · have hrest : ¬ IsBoundary items q.length := by
        rintro ⟨k, hk, hlength⟩
        refine hcut ⟨k + 1, Nat.succ_le_succ hk, ?_⟩
        rw [List.length_append, hlength, ← List.length_append]
        rfl
      obtain ⟨defect, hdefect⟩ := ih (by omega) hq hrest
      rw [decode_write_append hrecord, hdefect]
      cases hitem : (Record.ofItem item).item? with
      | error e =>
        obtain ⟨first, rfl⟩ := Record.onlyDecode_item?_ofItem (by omega) e hitem
        exact ⟨first, rfl⟩
      | ok found => exact ⟨defect, rfl⟩

/-- Of a stream that ends too early, the items are decoded whose records are there as a whole, if it
ends between two records, and none if it ends anywhere else. -/
theorem decode_of_isPrefix (hl : (encode items).length < signedBound) (hp : p <+: encode items) :
    (IsBoundary items p.length → decode p = decode (encode (complete p.length items))) ∧
      (¬ IsBoundary items p.length → ∃ defect, decode p = .error (.decode defect)) :=
  ⟨fun h => congrArg decode (eq_encode_complete hp h), exists_decode_eq_error hl hp⟩

/-- A mesh, a sharding and a move, whose records have 21, 29 and 16 bytes. -/
def cutItems : List Item :=
  [.mesh rackMesh,
    .sharding ⟨"mesh", [⟨[.full "x"], true, none⟩, ⟨[], false, none⟩], [.full "y"], []⟩,
    .moves [⟨[.full "x"], 0, 2⟩]]

theorem decode_of_isPrefix_cutItems :
    (encode cutItems).length < signedBound ∧
      decode ((encode cutItems).take 50) = decode (encode (cutItems.take 2)) ∧
      ∃ defect, decode ((encode cutItems).take 60) = .error (.decode defect) := by
  have hl : (encode cutItems).length < signedBound := by decide +kernel
  have hboundary : IsBoundary cutItems ((encode cutItems).take 50).length := by decide +kernel
  have hcomplete : complete ((encode cutItems).take 50).length cutItems = cutItems.take 2 := by
    decide +kernel
  have hcut : ¬ IsBoundary cutItems ((encode cutItems).take 60).length := by decide +kernel
  have hbetween := (decode_of_isPrefix hl (List.take_prefix 50 _)).1 hboundary
  rw [hcomplete] at hbetween
  exact ⟨hl, hbetween, (decode_of_isPrefix hl (List.take_prefix 60 _)).2 hcut⟩

end Wire
end MeshSharding
