import Mathlib.Algebra.BigOperators.Group.Finset.Piecewise
import Mathlib.Algebra.Order.BigOperators.Group.List
import Mathlib.Algebra.Order.Ring.Nat
import MeshSharding.Proofs.Wire.Value

/-! How many bytes are written for what has been read. A number may have been read from more bytes
than it needs and is written in as few as possible. Only a number that has been read from a field of
its own may need more bytes when it is packed, as the length of the list stands in front of it then;
this adds at most a half. -/
namespace MeshSharding
namespace Varint

/-- The number of bytes of a number. -/
def width (n : Nat) : Nat := (write n).length

theorem length_write (n : Nat) : (write n).length = width n := rfl

theorem width_of_lt {n : Nat} (h : n < 128) : width n = 1 := by
  rw [width, write, if_pos h]
  rfl

theorem width_of_le {n : Nat} (h : 128 ≤ n) : width n = width (n / 128) + 1 := by
  rw [width, write, if_neg (Nat.not_lt.2 h), List.length_cons, length_write]

theorem width_pos (n : Nat) : 0 < width n := List.length_pos_iff.2 (write_ne_nil n)

theorem width_mono {m n : Nat} (h : m ≤ n) : width m ≤ width n := by
  induction n using Nat.strong_induction_on generalizing m with
  | _ n ih =>
    by_cases hm : m < 128
    · rw [width_of_lt hm]
      exact width_pos n
    · have hdiv := ih (n / 128) (by omega) (Nat.div_le_div_right (c := 128) h)
      rw [width_of_le (Nat.not_lt.1 hm), width_of_le (by omega : 128 ≤ n)]
      omega

/-- One more byte holds 128 times as much. -/
theorem width_le_succ {m n : Nat} (h : m ≤ 128 * n) : width m ≤ width n + 1 := by
  by_cases hm : m < 128
  · rw [width_of_lt hm]
    omega
  · have hdiv : width (m / 128) ≤ width n := width_mono (by omega)
    rw [width_of_le (Nat.not_lt.1 hm)]
    omega

theorem width_add_le (m n : Nat) : width (m + n) ≤ width m + width n := by
  have hm := width_pos m
  have hn := width_pos n
  rcases Nat.le_total m n with h | h
  · have := width_le_succ (by omega : m + n ≤ 128 * n)
    omega
  · have := width_le_succ (by omega : m + n ≤ 128 * m)
    omega

theorem width_le (n : Nat) : 64 * width n ≤ n + 64 := by
  induction n using Nat.strong_induction_on with
  | _ n ih =>
    by_cases hn : n < 128
    · rw [width_of_lt hn]
      omega
    · have := ih (n / 128) (by omega)
      rw [width_of_le (Nat.not_lt.1 hn)]
      omega

/-- No fewer bytes are read for a number than are written for it. -/
theorem width_of_readUpTo {left : Nat} {bytes : Bytes} {p : Nat × Bytes}
    (h : readUpTo left bytes = some p) : width p.1 + p.2.length ≤ bytes.length := by
  induction left generalizing bytes p with
  | zero => cases h
  | succ left ih =>
    cases bytes with
    | nil => cases h
    | cons b rest =>
      rw [readUpTo] at h
      rw [List.length_cons]
      split at h
      · rename_i hlast
        split at h
        · cases h
        · cases h
          rw [width_of_lt hlast, Nat.add_comm]
      · obtain ⟨q, hq, rfl⟩ := Option.map_eq_some_iff.1 h
        have hrest := ih hq
        have hbyte : b.toNat < 256 := b.toNat_lt
        -- If there are only zeros behind the byte, nothing is written for them.
        have hvalue : width (b.toNat - 128 + 128 * q.1) ≤ width q.1 + 1 := by
          by_cases hzero : q.1 = 0
          · rw [width_of_lt (by omega)]
            omega
          · rw [width_of_le (by omega), show (b.toNat - 128 + 128 * q.1) / 128 = q.1 by omega]
        dsimp only
        omega

theorem width_of_read {bytes : Bytes} {p : Nat × Bytes} (h : read bytes = some p) :
    width p.1 + p.2.length ≤ bytes.length := width_of_readUpTo h

end Varint

namespace Wire

open Varint

/-! ### Fields -/

theorem length_of_takeBytes {n : Nat} {bytes : Bytes} {p : Bytes × Bytes}
    (h : takeBytes n bytes = some p) : p.1.length = n ∧ n + p.2.length = bytes.length := by
  unfold takeBytes at h
  split at h
  · rename_i hlength
    cases h
    refine ⟨hlength, ?_⟩
    rw [List.length_take] at hlength
    rw [List.length_drop]
    omega
  · cases h

theorem length_delimited (content : Bytes) :
    (delimited content).length = width content.length + content.length := by
  rw [delimited, List.length_append, length_write]

/-- The number of bytes of a field that has a key of one byte and that many bytes as its payload. -/
def framed (length : Nat) : Nat := 1 + (width length + length)

theorem framed_add_le (a b : Nat) : framed (a + b) ≤ framed a + framed b := by
  have := width_add_le a b
  unfold framed
  omega

theorem framed_le {a b : Nat} (h : 2 * a ≤ 3 * b) : 2 * framed a ≤ 3 * framed b := by
  have hwidth := width_le_succ (by omega : a ≤ 128 * b)
  have hpos := width_pos b
  unfold framed
  omega

theorem length_of_readDelimited {bytes : Bytes} {p : Bytes × Bytes}
    (h : readDelimited bytes = some p) :
    (delimited p.1).length + p.2.length ≤ bytes.length := by
  unfold readDelimited at h
  split at h
  · rename_i n rest hread
    have hwidth := width_of_read hread
    obtain ⟨hlength, hrest⟩ := length_of_takeBytes h
    rw [length_delimited, hlength]
    dsimp only at hwidth
    omega
  · cases h

theorem length_of_readKey {number type : Nat} {bytes rest : Bytes}
    (h : readKey bytes = some ((number, type), rest)) :
    (writeKey number type).length + rest.length ≤ bytes.length := by
  unfold readKey at h
  split at h
  · rename_i key rest hread
    split at h
    · cases h
      have hkey : key / 8 * 8 + key % 8 = key := by omega
      rw [writeKey, hkey]
      exact width_of_read hread
    · cases h
  · cases h

/-- A payload is read from no fewer bytes than are written for it behind its key. -/
theorem length_of_readPlain {type : Nat} {bytes : Bytes} {p : Payload × Bytes} (number : Nat)
    (h : readPlain type bytes = some p) :
    (writeField ⟨number, p.1⟩).length + p.2.length
      ≤ (writeKey number type).length + bytes.length := by
  unfold readPlain at h
  split at h
  · obtain ⟨q, hq, rfl⟩ := Option.map_eq_some_iff.1 h
    have hwidth := width_of_read hq
    simp only [writeField, List.length_append, length_write]
    omega
  · obtain ⟨q, hq, rfl⟩ := Option.map_eq_some_iff.1 h
    have hshorter := takeBytes_shorter hq
    simp only [writeField, List.length_nil]
    omega
  · obtain ⟨q, hq, rfl⟩ := Option.map_eq_some_iff.1 h
    have hlength := length_of_readDelimited hq
    simp only [writeField, List.length_append]
    omega
  · obtain ⟨q, hq, rfl⟩ := Option.map_eq_some_iff.1 h
    have hshorter := takeBytes_shorter hq
    simp only [writeField, List.length_nil]
    omega
  · cases h

theorem length_of_readField {limit : Nat} {bytes : Bytes} {p : Field × Bytes}
    (h : readField limit bytes = some p) :
    (writeField p.1).length + p.2.length ≤ bytes.length := by
  unfold readField at h
  split at h
  · cases h
  · rename_i number type rest hkey
    have hlength := length_of_readKey hkey
    split at h
    · obtain ⟨r, hr, rfl⟩ := Option.map_eq_some_iff.1 h
      have hshorter := skipGroups_shorter hr
      simp only [writeField, List.length_nil]
      omega
    · obtain ⟨q, hq, rfl⟩ := Option.map_eq_some_iff.1 h
      have hplain := length_of_readPlain number hq
      dsimp only
      omega

namespace Fields

/-- The number of bytes that are written for the fields. -/
def byteCount (fs : Fields) : Nat := (writeFields fs).length

@[simp] theorem byteCount_nil : byteCount [] = 0 := rfl

@[simp] theorem byteCount_cons (f : Field) (fs : Fields) :
    byteCount (f :: fs) = (writeField f).length + fs.byteCount := by
  rw [byteCount, writeFields_cons, List.length_append]
  rfl

@[simp] theorem byteCount_append (fs gs : Fields) :
    byteCount (fs ++ gs) = fs.byteCount + gs.byteCount := by
  rw [byteCount, writeFields_append, List.length_append]
  rfl

theorem byteCount_filter_le (fs : Fields) (p : Field → Bool) :
    byteCount (fs.filter p) ≤ fs.byteCount :=
  (List.filter_sublist.flatMap writeField).length_le

end Fields

theorem byteCount_of_readFields {limit : Nat} {bytes : Bytes} {fs : Fields}
    (h : readFields limit bytes = some fs) : fs.byteCount ≤ bytes.length := by
  fun_induction readFields limit bytes generalizing fs with
  | case1 =>
    cases h
    exact Nat.le_refl 0
  | case2 => cases h
  | case3 bytes hne field rest hread hshorter ih =>
    obtain ⟨gs, hgs, rfl⟩ := Option.map_eq_some_iff.1 h
    have hfield := length_of_readField hread
    have hrest := ih hgs
    rw [Fields.byteCount_cons]
    dsimp only at hfield
    omega

namespace Fields

theorem byteCount_ofBytes (n : Nat) {content : Bytes} (h : content ≠ []) :
    (ofBytes n content).byteCount
      = (writeKey n 2).length + (width content.length + content.length) := by
  rw [ofBytes, if_neg h, byteCount_cons, byteCount_nil, Nat.add_zero, writeField,
    List.length_append, length_delimited]

theorem length_le_byteCount_ofBytes (n : Nat) (content : Bytes) :
    content.length ≤ (ofBytes n content).byteCount := by
  by_cases h : content = []
  · subst h
    exact Nat.zero_le _
  · rw [byteCount_ofBytes n h]
    omega

theorem byteCount_ofBytes_mono (n : Nat) {a b : Bytes} (h : a.length ≤ b.length) :
    (ofBytes n a).byteCount ≤ (ofBytes n b).byteCount := by
  by_cases ha : a = []
  · subst ha
    exact Nat.zero_le _
  · have hb : b ≠ [] := List.length_pos_iff.1 (Nat.lt_of_lt_of_le (List.length_pos_iff.2 ha) h)
    have hwidth := width_mono h
    rw [byteCount_ofBytes n ha, byteCount_ofBytes n hb]
    omega

end Fields

/-! ### Packed numbers -/

/-- The words one behind the other. -/
def packed (xs : List Int64) : Bytes := xs.flatMap fun x => Varint.write (unsigned x)

theorem packed_append (xs ys : List Int64) : packed (xs ++ ys) = packed xs ++ packed ys :=
  List.flatMap_append

theorem length_le_packed (xs : List Int64) : xs.length ≤ (packed xs).length := by
  induction xs with
  | nil => exact Nat.le_refl 0
  | cons x xs ih =>
    have hpos := width_pos (unsigned x)
    rw [← List.singleton_append, packed_append, List.length_append, List.length_append]
    simp only [packed, List.flatMap_singleton, length_write, List.length_singleton] at ih ⊢
    omega

theorem unsigned_ofNat_le (x : Nat) : unsigned (Int64.ofNat x) ≤ x := Nat.mod_le x _

/-- Every word of a list has a byte of its own. -/
theorem length_le_ofWords (n : Nat) (xs : List Int64) :
    xs.length ≤ (writeFields (.ofWords n xs)).length :=
  Nat.le_trans (length_le_packed xs) (Fields.length_le_byteCount_ofBytes n (packed xs))

theorem length_packed_le {bytes : Bytes} {xs : List Nat} (h : readPacked bytes = some xs) :
    (packed (xs.map Int64.ofNat)).length ≤ bytes.length := by
  fun_induction readPacked bytes generalizing xs with
  | case1 =>
    cases h
    exact Nat.le_refl 0
  | case2 => cases h
  | case3 bytes hne m rest hread hshorter ih =>
    obtain ⟨ys, hys, rfl⟩ := Option.map_eq_some_iff.1 h
    have hwidth := width_of_read hread
    have hmono := width_mono (unsigned_ofNat_le m)
    have hrest := ih hys
    unfold packed at hrest ⊢
    rw [List.map_cons, List.flatMap_cons, List.length_append, length_write]
    dsimp only at hwidth
    omega

namespace Fields

variable {fs : Fields} {n : Nat}

/-- The number of bytes that are written for the fields with the number `n`. -/
def share (fs : Fields) (n : Nat) : Nat :=
  ((fs.payloads n).map fun p => (writeField ⟨n, p⟩).length).sum

theorem share_cons (f : Field) (fs : Fields) (n : Nat) :
    share (f :: fs) n = (if n = f.number then (writeField f).length else 0) + fs.share n := by
  unfold share payloads
  by_cases h : f.number = n
  · subst h
    simp
  · rw [List.filter_cons_of_neg (by simpa using h), if_neg (Ne.symm h), Nat.zero_add]

/-- Fields with different numbers have different bytes. -/
theorem sum_share_le (fs : Fields) (n : Nat) :
    ∑ k ∈ Finset.range n, fs.share k ≤ fs.byteCount := by
  induction fs with
  | nil => simp [share, payloads]
  | cons f fs ih =>
    have hfield : ∑ k ∈ Finset.range n, (if k = f.number then (writeField f).length else 0)
        ≤ (writeField f).length := by
      rw [Finset.sum_ite_eq']
      split
      · exact Nat.le_refl _
      · exact Nat.zero_le _
    simp only [share_cons, Finset.sum_add_distrib, byteCount_cons]
    omega

/-! ### Values -/

/-- What has been read from the payloads with one number takes no more bytes than its parts, each of
which has been read from one of them. -/
theorem sum_le_share {α : Type} {read : Payload → Option α} {xs : List α} {u : α → Nat}
    (j k : Nat) (h : fs.all n read = some xs)
    (hu : ∀ p x, read p = some x → j * u x ≤ k * (writeField ⟨n, p⟩).length) :
    j * (xs.map u).sum ≤ k * fs.share n := by
  unfold all at h
  unfold share
  generalize fs.payloads n = ps at h
  induction ps generalizing xs with
  | nil =>
    cases h
    exact Nat.zero_le _
  | cons p ps ih =>
    rw [List.mapM_cons] at h
    obtain ⟨x, hx, h⟩ := Option.bind_eq_some_iff.1 h
    obtain ⟨rest, hrest, h⟩ := Option.bind_eq_some_iff.1 h
    cases h
    have hfirst := hu p x hx
    have hothers := ih hrest
    simp only [List.map_cons, List.sum_cons, Nat.mul_add]
    omega

theorem byteCount_le_of_all {α : Type} {read : Payload → Option α} {xs : List α}
    {write : α → Fields} (h : fs.all n read = some xs)
    (hwrite : ∀ p x, read p = some x → (write x).byteCount ≤ (writeField ⟨n, p⟩).length) {x : α}
    (hx : x ∈ xs) : (write x).byteCount ≤ fs.share n := by
  have hsum := sum_le_share 1 1 h (by simpa using hwrite)
  have hle := List.le_sum_of_mem (List.mem_map_of_mem (f := fun x => (write x).byteCount) hx)
  omega

/-- A value that is read from the last of its payloads is written in the bytes of this one. -/
theorem byteCount_le_of_last {α : Type} {read : Payload → Option α} {absent x : α}
    {write : α → Fields} (h : fs.last n read absent = some x) (habsent : write absent = [])
    (hwrite : ∀ p x, read p = some x → (write x).byteCount ≤ (writeField ⟨n, p⟩).length) :
    (write x).byteCount ≤ fs.share n := by
  obtain ⟨xs, hxs, rfl⟩ := Option.map_eq_some_iff.1 h
  rw [List.getLastD_eq_getLast?]
  cases hlast : xs.getLast? with
  | none =>
    rw [Option.getD_none, habsent]
    exact Nat.zero_le _
  | some x => exact byteCount_le_of_all hxs hwrite (List.mem_of_getLast? hlast)

/-! ### Numbers and bytes -/

theorem length_writeKey (hn : n < 16) {type : Nat} (ht : type < 8) :
    (writeKey n type).length = 1 := by
  rw [writeKey, length_write, width_of_lt (by omega)]

theorem length_writeField_varint (hn : n < 16) (x : Nat) :
    (writeField ⟨n, .varint x⟩).length = 1 + width x := by
  simp only [writeField, List.length_append, length_writeKey hn (by decide : 0 < 8), length_write]

theorem length_writeField_bytes (hn : n < 16) (content : Bytes) :
    (writeField ⟨n, .bytes content⟩).length = framed content.length := by
  simp only [writeField, List.length_append, length_writeKey hn (by decide : 2 < 8),
    length_delimited, framed]

theorem byteCount_ofNumber_le (hn : n < 16) (x : Nat) :
    (ofNumber n x).byteCount ≤ 1 + width x := by
  unfold ofNumber
  split
  · exact Nat.zero_le _
  · simp [length_writeField_varint hn]

theorem byteCount_ofBytes_le (hn : n < 16) (content : Bytes) :
    (ofBytes n content).byteCount ≤ framed content.length := by
  unfold ofBytes
  split
  · exact Nat.zero_le _
  · simp [length_writeField_bytes hn]

theorem width_le_of_word? (hn : n < 16) {p : Payload} {x : Int64} (h : p.word? = some x) :
    1 + width (unsigned x) ≤ (writeField ⟨n, p⟩).length := by
  cases p with
  | varint m =>
    cases h
    rw [length_writeField_varint hn]
    exact Nat.add_le_add_left (width_mono (unsigned_ofNat_le m)) 1
  | _ => cases h

theorem byteCount_word_le (hn : n < 16) {x : Int64} (h : fs.word n = some x) :
    (ofWord n x).byteCount ≤ fs.share n :=
  byteCount_le_of_last h rfl fun _ _ hp =>
    Nat.le_trans (byteCount_ofNumber_le hn _) (width_le_of_word? hn hp)

theorem byteCount_optionalWord_le (hn : n < 16) {x : Option Int64}
    (h : fs.optionalWord n = some x) : (ofOptionalWord n x).byteCount ≤ fs.share n := by
  obtain ⟨xs, hxs, rfl⟩ := Option.map_eq_some_iff.1 h
  cases hlast : xs.getLast? with
  | none => exact Nat.zero_le _
  | some x =>
    have hwrite : ∀ p x, Payload.word? p = some x →
        (ofOptionalWord n (some x)).byteCount ≤ (writeField ⟨n, p⟩).length := fun p x hp => by
      simpa [ofOptionalWord, length_writeField_varint hn] using width_le_of_word? hn hp
    exact byteCount_le_of_all hxs hwrite (List.mem_of_getLast? hlast)

theorem byteCount_bool_le (hn : n < 16) {b : Bool} (h : fs.bool n = some b) :
    (ofBool n b).byteCount ≤ fs.share n := by
  refine byteCount_le_of_last h rfl fun p x hp => ?_
  cases p with
  | varint m =>
    cases hp
    have hbit := byteCount_ofNumber_le hn (decide (m ≠ 0)).toNat
    rw [width_of_lt (Nat.lt_of_le_of_lt (Bool.toNat_le _) (by decide))] at hbit
    rw [length_writeField_varint hn]
    exact Nat.le_trans hbit (Nat.add_le_add_left (width_pos m) 1)
  | _ => cases hp

theorem byteCount_bytes_le (hn : n < 16) {content : Bytes} (h : fs.bytes n = some content) :
    (ofBytes n content).byteCount ≤ fs.share n := by
  refine byteCount_le_of_last h rfl fun p x hp => ?_
  cases p with
  | bytes content =>
    cases hp
    rw [length_writeField_bytes hn]
    exact byteCount_ofBytes_le hn x
  | _ => cases hp

theorem utf8_of_text? {content : Bytes} {s : String} (h : text? content = some s) :
    utf8 s = content := by
  unfold text? String.fromUTF8? at h
  split at h
  · cases h
    rfl
  · cases h

theorem byteCount_string_le (hn : n < 16) {s : String} (h : fs.string n = some s) :
    (ofString n s).byteCount ≤ fs.share n := by
  refine byteCount_le_of_last h rfl fun p x hp => ?_
  cases p with
  | bytes content =>
    rw [length_writeField_bytes hn, ← utf8_of_text? hp]
    exact byteCount_ofBytes_le hn (utf8 x)
  | _ => cases hp

theorem length_packed_lt_of_words? (hn : n < 16) {p : Payload} {xs : List Int64}
    (h : p.words? = some xs) : (packed xs).length + 1 ≤ (writeField ⟨n, p⟩).length := by
  cases p with
  | varint m =>
    cases h
    have hmono := width_mono (unsigned_ofNat_le m)
    rw [length_writeField_varint hn]
    simp only [packed, List.flatMap_cons, List.flatMap_nil, List.append_nil, length_write]
    omega
  | bytes content =>
    obtain ⟨ns, hns, rfl⟩ := Option.map_eq_some_iff.1 h
    have := length_packed_le hns
    rw [length_writeField_bytes hn, framed]
    omega
  | other => cases h

theorem length_packed_le_share (hn : n < 16) {xs : List Int64} (h : fs.words n = some xs) :
    (packed xs).length ≤ fs.share n ∧ (xs ≠ [] → (packed xs).length < fs.share n) := by
  obtain ⟨xss, hxss, rfl⟩ := Option.map_eq_some_iff.1 h
  have hsum := sum_le_share 1 1 (u := fun xs => (packed xs).length + 1) hxss
    (by simpa using fun p x => length_packed_lt_of_words? hn)
  have hpacked : (packed xss.flatten).length + xss.length
      = (xss.map fun xs => (packed xs).length + 1).sum := by
    clear hsum hxss h
    induction xss with
    | nil => rfl
    | cons xs xss ih =>
      rw [List.flatten_cons, packed_append, List.length_append, List.map_cons, List.sum_cons,
        List.length_cons]
      omega
  refine ⟨by omega, fun hne => ?_⟩
  cases xss with
  | nil => exact absurd rfl hne
  | cons xs xss =>
    rw [List.length_cons] at hpacked
    omega

/-- Only a single small number needs more bytes packed than in a field of its own. -/
theorem byteCount_words_le (hn : n < 16) {xs : List Int64} (h : fs.words n = some xs) :
    2 * (ofWords n xs).byteCount ≤ 3 * fs.share n := by
  obtain ⟨-, hlt⟩ := length_packed_le_share hn h
  by_cases hnil : xs = []
  · subst hnil
    exact Nat.zero_le _
  · have hle : (ofWords n xs).byteCount ≤ framed (packed xs).length :=
      byteCount_ofBytes_le hn (packed xs)
    have hpos : 0 < (packed xs).length :=
      Nat.lt_of_lt_of_le (List.length_pos_iff.2 hnil) (length_le_packed xs)
    have hwidth := width_le (packed xs).length
    have hshare := hlt hnil
    unfold framed at hle
    omega

end Fields

end Wire
end MeshSharding
