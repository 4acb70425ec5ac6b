import MeshSharding.Wire.Value

/-! What the fields of a message say. A reader takes a value from the payloads with its number
alone, and gives back what the writer of that kind of value has put there. -/
namespace MeshSharding
namespace Wire

/-! ### Words and texts -/

theorem unsigned_lt (x : Int64) : unsigned x < wordBound := x.toUInt64.toNat_lt

@[simp] theorem ofNat_unsigned (x : Int64) : Int64.ofNat (unsigned x) = x :=
  congrArg Int64.ofUInt64 (UInt64.ofNat_toNat)

@[simp] theorem text?_utf8 (s : String) : text? (utf8 s) = some s := by
  rw [text?, utf8, Array.toArray_toList]
  exact dif_pos s.isValidUTF8

/-- Words are packed without a sign, one behind the other. -/
theorem readPacked_packed (xs : List Int64) :
    readPacked (xs.flatMap fun x => Varint.write (unsigned x)) = some (xs.map unsigned) := by
  induction xs with
  | nil => simp [readPacked]
  | cons x xs ih =>
    have hread := Varint.read_write_append
      (xs.flatMap fun x => Varint.write (unsigned x)) (unsigned_lt x)
    rw [List.flatMap_cons, readPacked, if_neg (by simp [Varint.write_ne_nil])]
    split
    · rename_i h
      rw [hread] at h
      cases h
    · rename_i n rest h
      rw [hread] at h
      cases h
      simp [ih]

theorem mapM_map_eq_some {α β : Type} {f : β → Option α} {g : α → β} {l : List α}
    (hf : ∀ a ∈ l, f (g a) = some a) : (l.map g).mapM f = some l := by
  induction l with
  | nil => rfl
  | cons a rest ih =>
    rw [List.forall_mem_cons] at hf
    rw [List.map_cons, List.mapM_cons, hf.1, ih hf.2]
    rfl

namespace Fields

variable {fs gs : Fields} {n k : Nat}

/-! ### Payloads with one number -/

@[simp] theorem payloads_append (fs gs : Fields) (n : Nat) :
    payloads (fs ++ gs) n = payloads fs n ++ payloads gs n := by
  simp [payloads]

theorem mem_payloads {p : Payload} : p ∈ fs.payloads n ↔ ⟨n, p⟩ ∈ fs := by
  simp only [payloads, List.mem_map, List.mem_filter, decide_eq_true_eq]
  constructor
  · rintro ⟨⟨_, _⟩, ⟨hf, rfl⟩, rfl⟩
    exact hf
  · exact fun h => ⟨_, ⟨h, rfl⟩, rfl⟩

/-- Fields with other numbers hold nothing that a reader of `n` takes. -/
theorem payloads_eq_nil (h : ∀ f ∈ fs, f.number ≠ n) : fs.payloads n = [] := by
  rw [payloads, List.filter_eq_nil_iff.2 (by simpa using h), List.map_nil]

theorem number_of_mem_ofNumber {x : Nat} {f : Field} (h : f ∈ ofNumber k x) : f.number = k := by
  unfold ofNumber at h
  grind

theorem number_of_mem_ofBytes {content : Bytes} {f : Field} (h : f ∈ ofBytes k content) :
    f.number = k := by
  unfold ofBytes at h
  grind

@[simp] theorem payloads_ofNumber_of_ne {x : Nat} (h : k ≠ n) :
    payloads (ofNumber k x) n = [] :=
  payloads_eq_nil fun _ hf => number_of_mem_ofNumber hf ▸ h

@[simp] theorem payloads_ofBytes_of_ne {content : Bytes} (h : k ≠ n) :
    payloads (ofBytes k content) n = [] :=
  payloads_eq_nil fun _ hf => number_of_mem_ofBytes hf ▸ h

@[simp] theorem payloads_ofWord_of_ne {x : Int64} (h : k ≠ n) : payloads (ofWord k x) n = [] :=
  payloads_ofNumber_of_ne h

@[simp] theorem payloads_ofBool_of_ne {b : Bool} (h : k ≠ n) : payloads (ofBool k b) n = [] :=
  payloads_ofNumber_of_ne h

@[simp] theorem payloads_ofString_of_ne {s : String} (h : k ≠ n) :
    payloads (ofString k s) n = [] :=
  payloads_ofBytes_of_ne h

@[simp] theorem payloads_ofWords_of_ne {xs : List Int64} (h : k ≠ n) :
    payloads (ofWords k xs) n = [] :=
  payloads_ofBytes_of_ne h

@[simp] theorem payloads_ofOptionalWord_of_ne {x : Option Int64} (h : k ≠ n) :
    payloads (ofOptionalWord k x) n = [] := by
  cases x <;> simp [payloads, ofOptionalWord, h]

@[simp] theorem payloads_ofMessages {α : Type} {fields : α → Fields} {xs : List α} :
    payloads (ofMessages k fields xs) n
      = if k = n then xs.map fun x => .bytes (writeFields (fields x)) else [] := by
  induction xs with
  | nil => simp [payloads, ofMessages]
  | cons x xs ih =>
    simp only [payloads, ofMessages, List.map_cons, List.filter_cons, ofMessage] at ih ⊢
    by_cases h : k = n <;> simp_all

/-! ### Numbers and bytes are read back -/

theorem last_ofNumber {α : Type} {x : Nat} {read : Payload → Option α} {a absent : α}
    (h : fs.payloads n = payloads (ofNumber n x) n) (hread : read (.varint x) = some a)
    (hzero : x = 0 → a = absent) : fs.last n read absent = some a := by
  rw [last, all, h, ofNumber]
  split
  · rename_i hx
    simp [payloads, hzero hx]
  · simp [payloads, hread]

theorem last_ofBytes {α : Type} {content : Bytes} {read : Payload → Option α} {a absent : α}
    (h : fs.payloads n = payloads (ofBytes n content) n)
    (hread : read (.bytes content) = some a) (hnil : content = [] → a = absent) :
    fs.last n read absent = some a := by
  rw [last, all, h, ofBytes]
  split
  · rename_i hx
    simp [payloads, hnil hx]
  · simp [payloads, hread]

theorem number_eq_some {x : Nat} (h : fs.payloads n = payloads (ofNumber n x) n) :
    fs.number n = some x :=
  last_ofNumber h rfl id

theorem word_eq_some {x : Int64} (h : fs.payloads n = payloads (ofWord n x) n) :
    fs.word n = some x := by
  refine last_ofNumber h (by simp [Payload.word?, Payload.number?]) fun hx => ?_
  rw [← ofNat_unsigned x, hx]
  rfl

theorem bool_eq_some {b : Bool} (h : fs.payloads n = payloads (ofBool n b) n) :
    fs.bool n = some b := by
  refine last_ofNumber h ?_ fun hb => ?_
  · cases b <;> rfl
  · cases b with
    | false => rfl
    | true => cases hb

theorem bytes_eq_some {content : Bytes} (h : fs.payloads n = payloads (ofBytes n content) n) :
    fs.bytes n = some content :=
  last_ofBytes h rfl id

theorem string_eq_some {s : String} (h : fs.payloads n = payloads (ofString n s) n) :
    fs.string n = some s := by
  refine last_ofBytes h (by simp [Payload.string?, Payload.bytes?]) fun hs => ?_
  have htext := text?_utf8 s
  rw [hs, ← show utf8 "" = [] from rfl, text?_utf8] at htext
  exact (Option.some.inj htext).symm

theorem words_eq_some {xs : List Int64} (h : fs.payloads n = payloads (ofWords n xs) n) :
    fs.words n = some xs := by
  have hread : Payload.words? (.bytes (xs.flatMap fun x => Varint.write (unsigned x)))
      = some xs := by
    simp [Payload.words?, readPacked_packed, Function.comp_def]
  rw [words, all, h, ofWords, ofBytes]
  split
  · rename_i hnil
    rw [hnil] at hread
    simpa [payloads, Payload.words?, readPacked] using hread
  · simp [payloads, hread]

theorem optionalWord_eq_some {x : Option Int64}
    (h : fs.payloads n = payloads (ofOptionalWord n x) n) : fs.optionalWord n = some x := by
  rw [optionalWord, all, h]
  cases x <;> simp [payloads, ofOptionalWord, Payload.word?, Payload.number?]

/-! ### Writable fields -/

/-- If a word counts the bytes of the fields, all of them are writable. -/
def Writable (fs : Fields) : Prop :=
  (writeFields fs).length < wordBound → ∀ f ∈ fs, f.IsWritable

theorem Writable.append (hf : fs.Writable) (hg : gs.Writable) : Writable (fs ++ gs) := by
  intro hl f hmem
  rw [writeFields_append, List.length_append] at hl
  rcases List.mem_append.1 hmem with hmem | hmem
  · exact hf (by omega) f hmem
  · exact hg (by omega) f hmem

/-- The bytes of a field are among those of all fields. -/
theorem length_le_of_mem {content : Bytes} (h : ⟨n, .bytes content⟩ ∈ fs) :
    content.length ≤ (writeFields fs).length := by
  induction fs with
  | nil => cases h
  | cons f fs ih =>
    rw [writeFields_cons, List.length_append]
    rcases List.mem_cons.1 h with rfl | h
    · simp only [writeField, delimited, List.length_append]
      omega
    · have := ih h
      omega

/-- The numbers of fields whose keys have 32 bits. -/
def IsNumber (n : Nat) : Prop := 1 ≤ n ∧ n * 8 < keyBound

instance (n : Nat) : Decidable (IsNumber n) := inferInstanceAs (Decidable (_ ∧ _))

theorem writable_of_bytes (hn : IsNumber n)
    (h : ∀ f ∈ fs, ∃ content, f = ⟨n, .bytes content⟩) : fs.Writable := by
  intro hl f hf
  obtain ⟨content, rfl⟩ := h f hf
  exact ⟨hn.1, hn.2, Nat.lt_of_le_of_lt (length_le_of_mem hf) hl⟩

theorem writable_ofNumber {x : Nat} (hn : IsNumber n) (hx : x < wordBound) :
    (ofNumber n x).Writable := by
  intro _ f hf
  unfold ofNumber at hf
  split at hf
  · cases hf
  · cases List.mem_singleton.1 hf
    exact ⟨hn.1, hn.2, hx⟩

theorem writable_ofWord (hn : IsNumber n) (x : Int64) : (ofWord n x).Writable :=
  writable_ofNumber hn (unsigned_lt x)

theorem writable_ofBool (hn : IsNumber n) (b : Bool) : (ofBool n b).Writable :=
  writable_ofNumber hn (by cases b <;> decide)

theorem writable_ofOptionalWord (hn : IsNumber n) (x : Option Int64) :
    (ofOptionalWord n x).Writable := by
  intro _ f hf
  cases x with
  | none => cases hf
  | some x =>
    cases List.mem_singleton.1 hf
    exact ⟨hn.1, hn.2, unsigned_lt x⟩

theorem writable_ofBytes (hn : IsNumber n) (content : Bytes) : (ofBytes n content).Writable :=
  writable_of_bytes hn fun f hf => by
    unfold ofBytes at hf
    split at hf
    · cases hf
    · exact ⟨content, List.mem_singleton.1 hf⟩

theorem writable_ofString (hn : IsNumber n) (s : String) : (ofString n s).Writable :=
  writable_ofBytes hn _

theorem writable_ofWords (hn : IsNumber n) (xs : List Int64) : (ofWords n xs).Writable :=
  writable_ofBytes hn _

theorem writable_ofMessages {α : Type} (hn : IsNumber n) (fields : α → Fields) (xs : List α) :
    (ofMessages n fields xs).Writable :=
  writable_of_bytes hn fun f hf => by
    obtain ⟨x, -, rfl⟩ := List.mem_map.1 hf
    exact ⟨_, rfl⟩

end Fields

/-! ### Messages in messages -/

/-- What is written for a value is read back, if a word counts its bytes. -/
structure RoundTrips {α : Type} (fields : α → Fields) (read : Nat → Fields → Option α) :
    Prop where
  writable (x : α) : (fields x).Writable
  read_fields (limit : Nat) (x : α) (hl : (writeFields (fields x)).length < wordBound) :
    read limit (fields x) = some x

namespace RoundTrips

variable {α : Type} {fields : α → Fields} {read : Nat → Fields → Option α} {fs : Fields}
variable {n : Nat}

theorem readFields_writeFields (h : RoundTrips fields read) (limit : Nat) {x : α}
    (hl : (writeFields (fields x)).length < wordBound) :
    readFields limit (writeFields (fields x)) = some (fields x) :=
  Wire.readFields_writeFields limit (h.writable x hl)

theorem length_lt_of_payloads {xs : List α}
    (hp : fs.payloads n = Fields.payloads (.ofMessages n fields xs) n)
    (hl : (writeFields fs).length < wordBound) :
    ∀ x ∈ xs, (writeFields (fields x)).length < wordBound := fun x hx => by
  have hmem : Payload.bytes (writeFields (fields x)) ∈ fs.payloads n := by
    rw [hp, Fields.payloads_ofMessages, if_pos rfl]
    exact List.mem_map_of_mem hx
  exact Nat.lt_of_le_of_lt (Fields.length_le_of_mem (Fields.mem_payloads.1 hmem)) hl

theorem messages_eq_some (h : RoundTrips fields read) (limit : Nat) {xs : List α}
    (hp : fs.payloads n = Fields.payloads (.ofMessages n fields xs) n)
    (hl : (writeFields fs).length < wordBound) : fs.messages read limit n = some xs := by
  have hlength := length_lt_of_payloads hp hl
  rw [Fields.messages, Fields.all, hp, Fields.payloads_ofMessages, if_pos rfl]
  refine mapM_map_eq_some fun x hx => ?_
  simp [Payload.bytes?, h.readFields_writeFields _ (hlength x hx),
    h.read_fields _ x (hlength x hx)]

theorem message?_eq_some (h : RoundTrips fields read) (limit : Nat) {x : Option α}
    (hp : fs.payloads n = Fields.payloads (.ofMessages n fields x.toList) n)
    (hl : (writeFields fs).length < wordBound) : fs.message? read limit n = some x := by
  have hlength := length_lt_of_payloads hp hl
  rw [Fields.message?, Fields.all, hp, Fields.payloads_ofMessages, if_pos rfl]
  cases x with
  | none => rfl
  | some x =>
    have hx := hlength x (by simp)
    simp [Payload.bytes?, h.readFields_writeFields _ hx, h.read_fields _ x hx]

end RoundTrips
end Wire
end MeshSharding
