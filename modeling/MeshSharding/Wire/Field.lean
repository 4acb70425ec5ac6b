import MeshSharding.Wire.Varint

/-! Messages as lists of numbered fields, and their bytes: a key with the number and the
type of the field, and then its payload. -/
namespace MeshSharding
namespace Wire

inductive Payload
  | varint (n : Nat)
  | bytes (content : Bytes)
  /-- Eight bytes, four bytes or a group, none of which any message here has. -/
  | other
deriving DecidableEq

structure Field where
  number : Nat
  payload : Payload
deriving DecidableEq

abbrev Fields := List Field

/-! ### Reading -/

/-- Keys have 32 bits. -/
def keyBound : Nat := 0x100000000

/-- The key in front of a field: its number, which is not zero, and its type. -/
def readKey (bytes : Bytes) : Option ((Nat × Nat) × Bytes) :=
  match Varint.read bytes with
  | some (key, rest) =>
    if key < keyBound ∧ 1 ≤ key / 8 then some ((key / 8, key % 8), rest) else none
  | none => none

theorem readKey_shorter {bytes : Bytes} {p : (Nat × Nat) × Bytes}
    (h : readKey bytes = some p) : p.2.length < bytes.length := by
  unfold readKey at h
  split at h
  · rename_i hr
    split at h
    · simp only [Option.some.injEq] at h; subst h; exact Varint.read_shorter hr
    · simp at h
  · simp at h

def takeBytes (n : Nat) (bytes : Bytes) : Option (Bytes × Bytes) :=
  if (bytes.take n).length = n then some (bytes.take n, bytes.drop n) else none

/-- Bytes behind their number. -/
def readDelimited (bytes : Bytes) : Option (Bytes × Bytes) :=
  match Varint.read bytes with
  | some (n, rest) => takeBytes n rest
  | none => none

theorem takeBytes_shorter {n : Nat} {bytes : Bytes} {p : Bytes × Bytes}
    (h : takeBytes n bytes = some p) : p.2.length ≤ bytes.length := by
  unfold takeBytes at h
  split at h
  · simp only [Option.some.injEq] at h; subst h; simp
  · simp at h

theorem readDelimited_shorter {bytes : Bytes} {p : Bytes × Bytes}
    (h : readDelimited bytes = some p) : p.2.length < bytes.length := by
  unfold readDelimited at h
  split at h
  · rename_i hr
    have := Varint.read_shorter hr
    have := takeBytes_shorter h
    simp_all; omega
  · simp at h

/-- The payload of a type other than the start and the end of a group. -/
def readPlain (type : Nat) (bytes : Bytes) : Option (Payload × Bytes) :=
  match type with
  | 0 => (Varint.read bytes).map fun p => (.varint p.1, p.2)
  | 1 => (takeBytes 8 bytes).map fun p => (.other, p.2)
  | 2 => (readDelimited bytes).map fun p => (.bytes p.1, p.2)
  | 5 => (takeBytes 4 bytes).map fun p => (.other, p.2)
  | _ => none

theorem readPlain_shorter {type : Nat} {bytes : Bytes} {p : Payload × Bytes}
    (h : readPlain type bytes = some p) : p.2.length ≤ bytes.length := by
  unfold readPlain at h
  split at h
  · obtain ⟨q, hq, rfl⟩ := Option.map_eq_some_iff.1 h
    exact Nat.le_of_lt (Varint.read_shorter hq)
  · obtain ⟨q, hq, rfl⟩ := Option.map_eq_some_iff.1 h
    exact takeBytes_shorter hq
  · obtain ⟨q, hq, rfl⟩ := Option.map_eq_some_iff.1 h
    exact Nat.le_of_lt (readDelimited_shorter hq)
  · obtain ⟨q, hq, rfl⟩ := Option.map_eq_some_iff.1 h
    exact takeBytes_shorter hq
  · simp at h

/-- Reads a field inside of groups, or the end of the innermost one, and gives the
numbers of the groups that are open behind it. A field inside of groups needs fewer of
them around it than `limit`. -/
def stepGroup (limit innermost : Nat) (outer : List Nat) (bytes : Bytes) :
    Option (List Nat × Bytes) :=
  match readKey bytes with
  | none => none
  | some ((number, type), rest) =>
    if type = 4 then (if number = innermost then some (outer, rest) else none)
    else if limit ≤ outer.length + 1 then none
    else if type = 3 then some (number :: innermost :: outer, rest)
    else (readPlain type rest).map fun p => (innermost :: outer, p.2)

theorem stepGroup_shorter {limit innermost : Nat} {outer : List Nat} {bytes : Bytes}
    {p : List Nat × Bytes} (h : stepGroup limit innermost outer bytes = some p) :
    p.2.length < bytes.length := by
  unfold stepGroup at h
  split at h
  · simp at h
  · rename_i hk
    have shorter := readKey_shorter hk
    split at h
    · split at h
      · simp only [Option.some.injEq] at h; subst h; exact shorter
      · simp at h
    · split at h
      · simp at h
      · split at h
        · simp only [Option.some.injEq] at h; subst h; exact shorter
        · obtain ⟨q, hq, rfl⟩ := Option.map_eq_some_iff.1 h
          exact Nat.lt_of_le_of_lt (readPlain_shorter hq) shorter

/-- What is behind the groups with the numbers `opened`, innermost first. -/
def skipGroups (limit : Nat) (opened : List Nat) (bytes : Bytes) : Option Bytes :=
  match opened with
  | [] => some bytes
  | innermost :: outer =>
    match h : stepGroup limit innermost outer bytes with
    | none => none
    | some (inside, rest) =>
      have := stepGroup_shorter h
      skipGroups limit inside rest
termination_by bytes.length

theorem skipGroups_shorter {limit : Nat} {opened : List Nat} {bytes rest : Bytes}
    (h : skipGroups limit opened bytes = some rest) : rest.length ≤ bytes.length := by
  fun_induction skipGroups limit opened bytes with
  | case1 => simp_all
  | case2 => simp at h
  | case3 bytes innermost outer inside tail hs shorter ih =>
    exact Nat.le_trans (ih h) (Nat.le_of_lt shorter)

def readField (limit : Nat) (bytes : Bytes) : Option (Field × Bytes) :=
  match readKey bytes with
  | none => none
  | some ((number, type), rest) =>
    if type = 3 then (skipGroups limit [number] rest).map fun r => (⟨number, .other⟩, r)
    else (readPlain type rest).map fun p => (⟨number, p.1⟩, p.2)

theorem readField_shorter {limit : Nat} {bytes : Bytes} {p : Field × Bytes}
    (h : readField limit bytes = some p) : p.2.length < bytes.length := by
  unfold readField at h
  split at h
  · simp at h
  · rename_i hk
    have := readKey_shorter hk
    split at h
    · obtain ⟨r, hr, rfl⟩ := Option.map_eq_some_iff.1 h
      have := skipGroups_shorter hr
      simp_all; omega
    · obtain ⟨q, hq, rfl⟩ := Option.map_eq_some_iff.1 h
      have := readPlain_shorter hq
      simp_all; omega

/-- All fields of a message; groups inside of it may be nested up to `limit` deep. -/
def readFields (limit : Nat) (bytes : Bytes) : Option Fields :=
  if bytes = [] then some []
  else
    match h : readField limit bytes with
    | none => none
    | some (field, rest) =>
      have := readField_shorter h
      (readFields limit rest).map (field :: ·)
termination_by bytes.length

/-! ### Writing -/

def writeKey (number type : Nat) : Bytes := Varint.write (number * 8 + type)

/-- Bytes behind their number. -/
def delimited (content : Bytes) : Bytes := Varint.write content.length ++ content

/-- Nothing is written for a payload that no message here has. -/
def writeField (f : Field) : Bytes :=
  match f.payload with
  | .varint n => writeKey f.number 0 ++ Varint.write n
  | .bytes content => writeKey f.number 2 ++ delimited content
  | .other => []

def writeFields (fs : Fields) : Bytes := fs.flatMap writeField

@[simp] theorem writeFields_nil : writeFields [] = [] := rfl

@[simp] theorem writeFields_cons (f : Field) (fs : Fields) :
    writeFields (f :: fs) = writeField f ++ writeFields fs := by simp [writeFields]

@[simp] theorem writeFields_append (fs gs : Fields) :
    writeFields (fs ++ gs) = writeFields fs ++ writeFields gs := by
  simp [writeFields]

/-! ### What is written is read back -/

theorem readKey_writeKey_append {number type : Nat} (rest : Bytes) (hn : 1 ≤ number)
    (hm : number * 8 < keyBound) (ht : type < 8) :
    readKey (writeKey number type ++ rest) = some ((number, type), rest) := by
  have hread := Varint.read_write_append (n := number * 8 + type) rest
    (by unfold wordBound; unfold keyBound at hm; omega)
  have hnumber : (number * 8 + type) / 8 = number := by omega
  have htype : (number * 8 + type) % 8 = type := by omega
  simp only [readKey, writeKey, hread, hnumber, htype]
  rw [if_pos ⟨by unfold keyBound at *; omega, hn⟩]

theorem readDelimited_delimited_append {content : Bytes} (rest : Bytes)
    (h : content.length < wordBound) :
    readDelimited (delimited content ++ rest) = some (content, rest) := by
  have hread := Varint.read_write_append (content ++ rest) h
  simp [readDelimited, delimited, takeBytes, hread]

/-- A word, which may also be a length, has 64 bits. -/
def Payload.IsWritable : Payload → Prop
  | varint n => n < wordBound
  | bytes content => content.length < wordBound
  | other => False

/-- The number of a field leaves three bits of its key for the type. -/
def Field.IsWritable (f : Field) : Prop :=
  1 ≤ f.number ∧ f.number * 8 < keyBound ∧ f.payload.IsWritable

theorem readField_writeField_append {f : Field} (limit : Nat) (rest : Bytes)
    (h : f.IsWritable) : readField limit (writeField f ++ rest) = some (f, rest) := by
  obtain ⟨number, payload⟩ := f
  obtain ⟨hn, hm, hp⟩ := h
  cases payload with
  | varint n =>
    have hkey := readKey_writeKey_append (Varint.write n ++ rest) hn hm (by omega : 0 < 8)
    simp [readField, writeField, hkey, readPlain, Varint.read_write_append rest hp]
  | bytes content =>
    have hkey := readKey_writeKey_append (delimited content ++ rest) hn hm (by omega : 2 < 8)
    simp [readField, writeField, hkey, readPlain, readDelimited_delimited_append rest hp]
  | other => exact hp.elim

theorem writeField_ne_nil {f : Field} (h : f.IsWritable) : writeField f ≠ [] := by
  obtain ⟨number, payload⟩ := f
  cases payload with
  | other => exact h.2.2.elim
  | _ => simp [writeField, writeKey, Varint.write_ne_nil]

theorem readFields_writeFields {fs : Fields} (limit : Nat) (h : ∀ f ∈ fs, f.IsWritable) :
    readFields limit (writeFields fs) = some fs := by
  induction fs with
  | nil => simp [readFields]
  | cons f fs ih =>
    have hf := h f (by simp)
    have hne : writeFields (f :: fs) ≠ [] := by simp [writeField_ne_nil hf]
    rw [readFields, if_neg hne]
    split
    · rename_i hr
      simp [readField_writeField_append limit _ hf] at hr
    · rename_i field rest hr
      simp only [writeFields_cons, readField_writeField_append limit _ hf, Option.some.injEq,
        Prod.mk.injEq] at hr
      obtain ⟨rfl, rfl⟩ := hr
      simp [ih fun g hg => h g (by simp [hg])]

end Wire
end MeshSharding
