import MeshSharding.Proofs.Rule.Verify
import MeshSharding.Proofs.Wire.Record
import MeshSharding.Proofs.Wire.Stored

/-! Which items have the same encoding. Bytes give their record back, a record its message, and a
message the item as it is stored. So items are told apart unless they differ in numbers beyond the
signed words alone. -/
namespace MeshSharding

/-- A rule that verifies maps to its own factors. -/
theorem Rule.mapsBelow_of_verify {r : Rule} {sig : Signature} (h : r.verify sig = .ok ()) :
    r.MapsBelow := by
  have hside (side : Side) : ∀ mapping ∈ r.mappings side, ∀ fs ∈ mapping.dims, ∀ f ∈ fs,
      f < r.factorCount := by
    intro mapping hmapping fs hfs f hf
    obtain ⟨i, hi⟩ := List.mem_iff_getElem?.1 hmapping
    obtain ⟨shape, -, hmaps⟩ := exists_maps_of_verify h (t := ⟨side, i⟩) hi
    exact hmaps.known f (List.mem_flatten_of_mem hfs hf)
  intro mapping hmapping
  rcases List.mem_append.1 hmapping with hmapping | hmapping
  · exact hside .operand mapping hmapping
  · exact hside .result mapping hmapping

namespace Wire

variable {a b : Item}

namespace Item

/-- The items that the library makes: its rules verify for some operation. -/
def IsConstructible : Item → Prop
  | .rule r => ∃ sig, r.verify sig = .ok ()
  | _ => True

/-- The items are stored alike: they are equal up to numbers beyond the signed words, each of which
is stored as the largest signed word. -/
def StoredAlike : Item → Item → Prop
  | .mesh m, .mesh n =>
    m.axes.map MeshAxis.stored = n.axes.map MeshAxis.stored ∧ m.deviceIds = n.deviceIds
  | .sharding s, .sharding t => s.stored = t.stored
  | .rule r, .rule q => r.stored = q.stored
  | .moves ms, .moves ns => ms.map Move.stored = ns.map Move.stored
  | _, _ => False

end Item

/-! ### Messages -/

theorem RoundTrips.eq_of_writeFields_eq {α : Type} {fields : α → Fields}
    {read : Nat → Fields → Option α} (h : RoundTrips fields read) {x y : α}
    (hl : (writeFields (fields x)).length < wordBound)
    (heq : writeFields (fields x) = writeFields (fields y)) : x = y := by
  have hx := h.readFields_writeFields 0 hl
  have hy := h.readFields_writeFields 0 (heq ▸ hl)
  have hfields : fields x = fields y := Option.some.inj (hx.symm.trans (heq ▸ hy))
  have hread := h.read_fields 0 x hl
  rw [hfields, h.read_fields 0 y (heq ▸ hl)] at hread
  exact (Option.some.inj hread).symm

theorem MeshMessage.ofMesh_eq_iff {m n : Mesh} : ofMesh m = ofMesh n ↔
    m.axes.map MeshAxis.stored = n.axes.map MeshAxis.stored ∧ m.deviceIds = n.deviceIds := by
  constructor
  · intro h
    obtain ⟨haxes, hids⟩ := MeshMessage.mk.inj h
    refine ⟨?_, ?_⟩
    · have hstored := mapM_meshAxis m.axes
      rw [haxes, mapM_meshAxis] at hstored
      exact (Except.ok.inj hstored).symm
    · cases hm : m.deviceIds with
      | none =>
        cases hn : n.deviceIds with
        | none => rfl
        | some ids =>
          rw [hm, hn] at hids
          exact absurd hids.symm (Mesh.deviceIds_ne_nil hn)
      | some ids =>
        rw [hm] at hids
        cases hn : n.deviceIds with
        | none =>
          rw [hn] at hids
          exact absurd hids (Mesh.deviceIds_ne_nil hm)
        | some ids' =>
          rw [hn] at hids
          exact congrArg some hids
  · rintro ⟨haxes, hids⟩
    have hstored (k : Mesh) :
        k.axes.map ofMeshAxis = (k.axes.map MeshAxis.stored).map ofMeshAxis := by
      simp [ofMeshAxis_stored]
    rw [ofMesh, ofMesh, hstored m, hstored n, haxes, hids]

theorem ShardingMessage.ofSharding_eq_iff {s t : TensorSharding} :
    ofSharding s = ofSharding t ↔ s.stored = t.stored := by
  constructor
  · intro h
    exact Except.ok.inj (by rw [← sharding_ofSharding_eq, h, sharding_ofSharding_eq])
  · intro h
    rw [← ofSharding_stored s, h, ofSharding_stored]

theorem RuleMessage.ofRule_eq_iff {r q : Rule} (hr : r.MapsBelow) (hq : q.MapsBelow)
    (hcount : r.factorCount ≤ signedBound) : ofRule r = ofRule q ↔ r.stored = q.stored := by
  constructor
  · intro h
    have hlength : (ofRule r).sizes.length = (ofRule q).sizes.length := by rw [h]
    have hcounts : r.factorCount = q.factorCount := by
      simpa [ofRule, Rule.sizes, Rule.factorCount] using hlength
    exact Except.ok.inj (by
      rw [← rule_ofRule_eq hr hcount, h, rule_ofRule_eq hq (hcounts ▸ hcount)])
  · intro h
    rw [← ofRule_stored r, h, ofRule_stored]

theorem MovesMessage.ofMoves_eq_iff {ms ns : List Move} :
    ofMoves ms = ofMoves ns ↔ ms.map Move.stored = ns.map Move.stored := by
  constructor
  · intro h
    exact Except.ok.inj (by rw [← content_ofMoves_eq, h, content_ofMoves_eq])
  · intro h
    have hstored (ks : List Move) : ofMoves ks = ofMoves (ks.map Move.stored) := by
      simp [ofMoves, MoveMessage.ofMove_stored]
    rw [hstored ms, h, ← hstored]

/-! ### Records -/

namespace Record

theorem eq_of_write_eq {r q : Record} (hl : r.write.length < wordBound) (h : r.write = q.write) :
    r = q := by
  have hfields (k : Record) : (writeFields k.fields).length ≤ k.write.length := by
    simp [write, delimited]
  have hr := readFrom_write_append [] (Nat.lt_of_le_of_lt (hfields r) hl)
  have hq := readFrom_write_append [] (Nat.lt_of_le_of_lt (hfields q) (h ▸ hl))
  rw [h, hq] at hr
  exact (Prod.mk.inj (Option.some.inj hr)).1.symm

/-- Items of different kinds have different records, and shardings tell by their unreduced axes in
which version of their message they are written. -/
theorem ofItem_eq_iff (ha : a.IsConstructible) (hb : b.IsConstructible)
    (hl : (ofItem a).payload.length < signedBound) : ofItem a = ofItem b ↔ a.StoredAlike b := by
  have hword : (ofItem a).payload.length < wordBound := Nat.lt_trans hl (by decide)
  cases a with
  | mesh m =>
    cases b with
    | mesh n =>
      rw [Item.StoredAlike, ← MeshMessage.ofMesh_eq_iff]
      constructor
      · intro h
        exact MeshMessage.roundTrips.eq_of_writeFields_eq hword (congrArg payload h)
      · intro h
        rw [ofItem, ofItem, h]
    | _ => simp [ofItem, Item.StoredAlike]
  | sharding s =>
    cases b with
    | sharding t =>
      rw [Item.StoredAlike, ← ShardingMessage.ofSharding_eq_iff]
      constructor
      · intro h
        exact ShardingMessage.roundTrips.eq_of_writeFields_eq hword (congrArg payload h)
      · intro h
        have hempty (k : TensorSharding) : k.unreduced.isEmpty
            = (ShardingMessage.ofSharding k).unreduced.isEmpty := by
          simp [ShardingMessage.ofSharding, AxisMessage.ofAxes]
        rw [ofItem, ofItem, hempty s, hempty t, h]
    | _ => simp [ofItem, Item.StoredAlike]
  | rule r =>
    cases b with
    | rule q =>
      obtain ⟨_, hr⟩ := ha
      obtain ⟨_, hq⟩ := hb
      have hcount := Nat.le_of_lt (Nat.lt_of_le_of_lt (RuleMessage.factorCount_le r) hl)
      rw [Item.StoredAlike, ← RuleMessage.ofRule_eq_iff (Rule.mapsBelow_of_verify hr)
        (Rule.mapsBelow_of_verify hq) hcount]
      constructor
      · intro h
        exact RuleMessage.roundTrips.eq_of_writeFields_eq hword (congrArg payload h)
      · intro h
        rw [ofItem, ofItem, h]
    | _ => simp [ofItem, Item.StoredAlike]
  | moves ms =>
    cases b with
    | moves ns =>
      rw [Item.StoredAlike, ← MovesMessage.ofMoves_eq_iff]
      constructor
      · intro h
        exact MovesMessage.roundTrips.eq_of_writeFields_eq hword (congrArg payload h)
      · intro h
        rw [ofItem, ofItem, h]
    | _ => simp [ofItem, Item.StoredAlike]

end Record

/-! ### Encodings -/

/-- Items have the same encoding exactly if they are stored alike, so that of two different items
without numbers beyond the signed words each has its own. -/
theorem encode_eq_encode_iff (ha : a.IsConstructible) (hb : b.IsConstructible)
    (hl : (encode [a]).length < signedBound) :
    (encode [a] = encode [b] ↔ a.StoredAlike b) ∧
      (a.IsStorable → b.IsStorable → a ≠ b → encode [a] ≠ encode [b]) := by
  have hencode (item : Item) : encode [item] = (Record.ofItem item).write := List.append_nil _
  have hpayload : (Record.ofItem a).payload.length < signedBound := by
    have hfields := (Record.ofItem a).payload_length_le
    rw [hencode, Record.write, delimited, List.length_append] at hl
    omega
  have hrecord : encode [a] = encode [b] ↔ Record.ofItem a = Record.ofItem b := by
    rw [hencode, hencode]
    constructor
    · exact Record.eq_of_write_eq (Nat.lt_trans (hencode a ▸ hl) (by decide))
    · exact congrArg Record.write
  refine ⟨hrecord.trans (Record.ofItem_eq_iff ha hb hpayload), fun hsa hsb hne h => hne ?_⟩
  have heq := hrecord.1 h
  have hitem := Record.item?_ofItem hsa hpayload
  rw [heq, Record.item?_ofItem hsb (heq ▸ hpayload)] at hitem
  exact (Option.some.inj (Except.ok.inj hitem)).symm

/-- The identity on a tensor with one dimension of the given size. -/
def identityItem (size : Nat) : Item :=
  .rule ⟨[⟨size, .passThrough, false⟩], [⟨[[0]]⟩], [⟨[[0]]⟩], false⟩

theorem encode_eq_encode_identityItem :
    ((identityItem 0x8000000000000000).IsConstructible ∧
      (identityItem 0xffffffffffffffff).IsConstructible ∧
      (encode [identityItem 0x8000000000000000]).length < signedBound ∧
      encode [identityItem 0x8000000000000000] = encode [identityItem 0xffffffffffffffff]) ∧
    (identityItem 8).IsConstructible ∧ (identityItem 16).IsConstructible ∧
      (encode [identityItem 8]).length < signedBound ∧
      encode [identityItem 8] ≠ encode [identityItem 16] := by
  have hvast : (identityItem 0x8000000000000000).IsConstructible :=
    ⟨⟨[[0x8000000000000000]], [[0x8000000000000000]]⟩, by decide⟩
  have hvaster : (identityItem 0xffffffffffffffff).IsConstructible :=
    ⟨⟨[[0xffffffffffffffff]], [[0xffffffffffffffff]]⟩, by decide⟩
  have height : (identityItem 8).IsConstructible := ⟨⟨[[8]], [[8]]⟩, by decide⟩
  have hsixteen : (identityItem 16).IsConstructible := ⟨⟨[[16]], [[16]]⟩, by decide⟩
  have hl : (encode [identityItem 0x8000000000000000]).length < signedBound := by decide +kernel
  have hl' : (encode [identityItem 8]).length < signedBound := by decide +kernel
  exact ⟨⟨hvast, hvaster, hl, (encode_eq_encode_iff hvast hvaster hl).1.2 rfl⟩,
    height, hsixteen, hl', (encode_eq_encode_iff height hsixteen hl').2 (by decide) (by decide)
      (by decide)⟩

/-- A sharding with one open dimension of the given priority. -/
def rankedItem (priority : Nat) : Item :=
  .sharding ⟨"mesh", [⟨[], false, some priority⟩], [], []⟩

/-- Priorities are words, but the first ones beyond the signed words are not told apart. -/
theorem not_encode_ne_of_ne :
    (rankedItem 0x7fffffffffffffff).IsConstructible ∧
      (rankedItem 0x8000000000000000).IsConstructible ∧
      rankedItem 0x7fffffffffffffff ≠ rankedItem 0x8000000000000000 ∧
      encode [rankedItem 0x7fffffffffffffff] = encode [rankedItem 0x8000000000000000] :=
  ⟨trivial, trivial, by decide, by decide +kernel⟩

end Wire
end MeshSharding
