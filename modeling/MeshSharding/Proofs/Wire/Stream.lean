import MeshSharding.Proofs.Wire.Record

/-! Streams in pieces. A reader takes a record from the front of a stream and looks at nothing
behind it. So a stream is decoded piece by piece, and a record that the reader does not know leaves
no trace in what is decoded, whatever its payload is. -/
namespace MeshSharding
namespace Varint

theorem readUpTo_append {left : Nat} {bytes : Bytes} {p : Nat × Bytes} (more : Bytes)
    (h : readUpTo left bytes = some p) :
    readUpTo left (bytes ++ more) = some (p.1, p.2 ++ more) := by
  induction left generalizing bytes p with
  | zero => cases h
  | succ left ih =>
    cases bytes with
    | nil => cases h
    | cons b rest =>
      rw [List.cons_append, readUpTo]
      rw [readUpTo] at h
      split at h
      · rename_i hlast
        rw [if_pos hlast]
        split at h
        · cases h
        · rename_i hbits
          cases h
          rw [if_neg hbits]
      · rename_i hlast
        obtain ⟨q, hq, rfl⟩ := Option.map_eq_some_iff.1 h
        rw [if_neg hlast, ih hq, Option.map_some]

theorem read_append {bytes : Bytes} {p : Nat × Bytes} (more : Bytes) (h : read bytes = some p) :
    read (bytes ++ more) = some (p.1, p.2 ++ more) := readUpTo_append more h

end Varint

namespace Wire

theorem takeBytes_append {n : Nat} {bytes : Bytes} {p : Bytes × Bytes} (more : Bytes)
    (h : takeBytes n bytes = some p) :
    takeBytes n (bytes ++ more) = some (p.1, p.2 ++ more) := by
  unfold takeBytes at h
  split at h
  · rename_i hlength
    cases h
    have hle : n ≤ bytes.length := by rw [List.length_take] at hlength; omega
    rw [takeBytes, List.take_append_of_le_length hle, List.drop_append_of_le_length hle,
      if_pos hlength]
  · cases h

theorem readDelimited_append {bytes : Bytes} {p : Bytes × Bytes} (more : Bytes)
    (h : readDelimited bytes = some p) :
    readDelimited (bytes ++ more) = some (p.1, p.2 ++ more) := by
  unfold readDelimited at h
  split at h
  · rename_i n rest hread
    simp only [readDelimited, Varint.read_append more hread, takeBytes_append more h]
  · cases h

theorem Record.readFrom_append {bytes : Bytes} {p : Record × Bytes} (more : Bytes)
    (h : readFrom bytes = some p) : readFrom (bytes ++ more) = some (p.1, p.2 ++ more) := by
  unfold readFrom at h
  split at h
  · rename_i content rest hread
    obtain ⟨r, hr, rfl⟩ := Option.map_eq_some_iff.1 h
    simp only [readFrom, readDelimited_append more hread, hr, Option.map_some]
  · cases h

/-- What is behind a stream does not change what the stream holds. -/
theorem decode_append {bytes : Bytes} {items : List Item} (more : Bytes)
    (h : decode bytes = .ok items) :
    decode (bytes ++ more) = do return items ++ (← decode more) := by
  replace h := decodes_of_decode h
  induction h with
  | nil =>
    rw [List.nil_append]
    cases decode more <;> rfl
  | cons hread hitem _ ih =>
    rw [decode_of_readFrom (Record.readFrom_append more hread), hitem, ih]
    cases decode more <;> simp [bind, Except.bind, pure, Except.pure]

/-! ### Records that the reader does not know -/

namespace Record

/-- The record is of a kind that the reader does not know, or of a version of its kind that is newer
than the newest one that the reader knows: the second one of shardings, else the first one. -/
def IsForeign (r : Record) : Prop :=
  r.kind ∉ [1, 2, 3, 4] ∨ (if r.kind = 2 then 2 else 1) < r.version
deriving Decidable

theorem isKnown_eq_false_iff (r : Record) : r.isKnown = false ↔ r.IsForeign := by
  unfold isKnown latest? IsForeign
  grind

/-- The payload of a record that the reader does not know is not read. -/
theorem item?_of_isForeign {r : Record} (h : r.IsForeign) : r.item? = .ok none := by
  rw [item?, r.isKnown_eq_false_iff.2 h]
  rfl

/-- The bytes of the records, one behind the other. -/
def stream (records : List Record) : Bytes := records.flatMap write

end Record

theorem encode_eq_stream (items : List Item) :
    encode items = Record.stream (items.map Record.ofItem) := by
  simp [encode, Record.stream, List.flatMap_map]

theorem decode_stream_cons {r : Record} {records : List Record}
    (hl : (writeFields r.fields).length < wordBound) :
    decode (Record.stream (r :: records))
      = do return (← r.item?).toList ++ (← decode (Record.stream records)) :=
  decode_write_append hl

/-- Records that the reader does not know may stand between the others, before them and behind them:
what is decoded, or why nothing is, depends on the other records alone. -/
theorem decode_stream_filter {records : List Record}
    (hl : ∀ r ∈ records, (writeFields r.fields).length < wordBound) :
    decode (Record.stream (records.filter fun r => ¬ r.IsForeign))
      = decode (Record.stream records) := by
  induction records with
  | nil => rfl
  | cons r records ih =>
    obtain ⟨hr, hrest⟩ := List.forall_mem_cons.1 hl
    rw [decode_stream_cons hr, ← ih hrest]
    by_cases hforeign : r.IsForeign
    · rw [List.filter_cons_of_neg (by simpa using hforeign), Record.item?_of_isForeign hforeign]
      cases decode (Record.stream _) <;> rfl
    · rw [List.filter_cons_of_pos (by simpa using hforeign), decode_stream_cons hr]

/-- A reader passes over the records that it does not know, and decodes two streams one behind the
other as it decodes each. -/
theorem decode_piecewise :
    (∀ records : List Record, (∀ r ∈ records, (writeFields r.fields).length < wordBound) →
      decode (Record.stream records)
        = decode (Record.stream (records.filter fun r => ¬ r.IsForeign))) ∧
    ∀ (a b : Bytes) (x y : List Item), decode a = .ok x → decode b = .ok y →
      decode (a ++ b) = .ok (x ++ y) := by
  refine ⟨fun records hl => (decode_stream_filter hl).symm, fun a b x y ha hb => ?_⟩
  rw [decode_append b ha, hb]
  rfl

/-- A mesh and a move among records of a kind and of versions that are not known. -/
def interleavedRecords : List Record :=
  [⟨42, 1, [1, 2, 3]⟩, .ofItem (.mesh rackMesh), ⟨1, 9, [0xff]⟩,
    .ofItem (.moves [⟨[.full "x"], 0, 2⟩]), ⟨2, 3, [0x0a, 0x80]⟩]

theorem decode_piecewise_interleavedRecords :
    let mesh : Item := .mesh (Mesh.grid 4 2 (by decide) (by decide))
    let moves : Item := .moves [⟨[.full "x"], 0, 2⟩]
    (∀ r ∈ interleavedRecords, (writeFields r.fields).length < wordBound) ∧
      decode (Record.stream interleavedRecords) = decode (encode [mesh, moves]) ∧
      decode (encode [mesh]) = .ok [mesh] ∧ decode (encode [moves]) = .ok [moves] ∧
      decode (encode [mesh] ++ encode [moves]) = .ok [mesh, moves] := by
  intro mesh moves
  have hl : ∀ r ∈ interleavedRecords, (writeFields r.fields).length < wordBound := by
    decide +kernel
  have hknown : (interleavedRecords.filter fun r => ¬ r.IsForeign)
      = [mesh, moves].map Record.ofItem := by decide +kernel
  have hmesh : decode (encode [mesh]) = .ok [mesh] := by decide +kernel
  have hmoves : decode (encode [moves]) = .ok [moves] := by decide +kernel
  have hskipped := decode_piecewise.1 interleavedRecords hl
  rw [hknown, ← encode_eq_stream] at hskipped
  exact ⟨hl, hskipped, hmesh, hmoves, decode_piecewise.2 _ _ _ _ hmesh hmoves⟩

end Wire
end MeshSharding
