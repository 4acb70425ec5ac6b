import MeshSharding.Proofs.Wire.Length
import MeshSharding.Wire.Message

/-! How many bytes are written for a message that has been read. For every kind of message they are at
most one and a half times as many as its fields had, however these were split, repeated or ordered. -/
namespace MeshSharding
namespace Wire

open Varint

/-- What is written for a message that has been read exceeds what is written for all fields that it
has been read from by at most a half. -/
def Compact {α : Type} (fields : α → Fields) (read : Nat → Fields → Option α) : Prop :=
  ∀ ⦃limit : Nat⦄ ⦃fs : Fields⦄ ⦃x : α⦄, read limit fs = some x →
    2 * (fields x).byteCount ≤ 3 * fs.byteCount

namespace Compact

variable {α : Type} {fields : α → Fields} {read : Nat → Fields → Option α} {fs : Fields}
variable {n limit : Nat}

/-- The fields of a message stand behind a key and their length. -/
theorem framed_byteCount_le (hn : n < 16) {p : Payload} {gs : Fields}
    (h : p.bytes?.bind (readFields limit) = some gs) :
    framed gs.byteCount ≤ (writeField ⟨n, p⟩).length := by
  cases p with
  | bytes content =>
    have hcontent : gs.byteCount ≤ content.length := byteCount_of_readFields h
    have hwidth := width_mono hcontent
    rw [Fields.length_writeField_bytes hn]
    unfold framed
    omega
  | _ => cases h

theorem byteCount_ofMessages (hn : n < 16) (fields : α → Fields) (xs : List α) :
    (Fields.ofMessages n fields xs).byteCount
      = (xs.map fun x => framed (fields x).byteCount).sum := by
  induction xs with
  | nil => rfl
  | cons x xs ih =>
    have hx : (writeField (Fields.ofMessage n fields x)).length
        = framed (fields x).byteCount := Fields.length_writeField_bytes hn _
    rw [Fields.ofMessages, List.map_cons, Fields.byteCount_cons, hx, ← Fields.ofMessages, ih,
      List.map_cons, List.sum_cons]

theorem byteCount_messages_le (h : Compact fields read) (hn : n < 16) {xs : List α}
    (hxs : fs.messages read limit n = some xs) :
    2 * (Fields.ofMessages n fields xs).byteCount ≤ 3 * fs.share n := by
  rw [byteCount_ofMessages hn]
  refine Fields.sum_le_share 2 3 hxs fun p x hp => ?_
  have hparts : (p.bytes?.bind (readFields (limit - 1))).bind (read (limit - 1)) = some x := by
    rw [Option.bind_assoc]
    exact hp
  obtain ⟨gs, hgs, hx⟩ := Option.bind_eq_some_iff.1 hparts
  have hpart := framed_byteCount_le hn hgs
  have hgrowth := framed_le (h hx)
  omega

/-- The parts of a message that have been put together need one key and one length only. -/
theorem framed_flatten_le {parts : List Fields} (h : parts ≠ []) :
    framed (Fields.byteCount parts.flatten)
      ≤ (parts.map fun gs => framed (Fields.byteCount gs)).sum := by
  induction parts with
  | nil => exact absurd rfl h
  | cons gs parts ih =>
    rw [List.flatten_cons, Fields.byteCount_append, List.map_cons, List.sum_cons]
    cases parts with
    | nil => exact Nat.le_refl _
    | cons gs' parts =>
      have hrest := ih (List.cons_ne_nil _ _)
      have hsplit := framed_add_le gs.byteCount
        (Fields.byteCount (gs' :: parts).flatten)
      omega

theorem byteCount_message?_le (h : Compact fields read) (hn : n < 16) {x : Option α}
    (hx : fs.message? read limit n = some x) :
    2 * (Fields.ofMessages n fields x.toList).byteCount ≤ 3 * fs.share n := by
  obtain ⟨parts, hparts, hx⟩ := Option.bind_eq_some_iff.1 hx
  split at hx
  · cases hx
    exact Nat.zero_le _
  · rename_i hne
    obtain ⟨m, hm, hx⟩ := Option.bind_eq_some_iff.1 hx
    cases hx
    have hsum := Fields.sum_le_share 1 1 hparts
      (by simpa using fun p _ => framed_byteCount_le (p := p) hn)
    have hflatten := framed_flatten_le (by simpa using hne : parts ≠ [])
    have hgrowth := framed_le (h hm)
    rw [Option.toList_some, byteCount_ofMessages hn, List.map_singleton, List.sum_singleton]
    omega

end Compact

open Fields

theorem WindowMessage.compact : Compact WindowMessage.fields WindowMessage.read := by
  intro limit fs m h
  simp only [read, Option.bind_eq_bind, Option.bind_eq_some_iff, Option.pure_def,
    Option.some.injEq] at h
  obtain ⟨preSize, hpreSize, size, hsize, rfl⟩ := h
  have hbound := fs.sum_share_le 3
  have hpreSize := byteCount_word_le (by decide) hpreSize
  have hsize := byteCount_word_le (by decide) hsize
  simp only [fields, byteCount_append, Finset.sum_range_succ] at hbound ⊢
  omega

theorem AxisMessage.compact : Compact AxisMessage.fields AxisMessage.read := by
  intro limit fs m h
  simp only [read, Option.bind_eq_bind, Option.bind_eq_some_iff, Option.pure_def,
    Option.some.injEq] at h
  obtain ⟨name, hname, window, hwindow, rfl⟩ := h
  have hbound := fs.sum_share_le 3
  have hname := byteCount_string_le (by decide) hname
  have hwindow := WindowMessage.compact.byteCount_message?_le (by decide) hwindow
  simp only [fields, byteCount_append, Finset.sum_range_succ] at hbound ⊢
  omega

theorem DimMessage.compact : Compact DimMessage.fields DimMessage.read := by
  intro limit fs m h
  simp only [read, Option.bind_eq_bind, Option.bind_eq_some_iff, Option.pure_def,
    Option.some.injEq] at h
  obtain ⟨axes, haxes, closed, hclosed, priority, hpriority, rfl⟩ := h
  have hbound := fs.sum_share_le 4
  have haxes := AxisMessage.compact.byteCount_messages_le (by decide) haxes
  have hclosed := byteCount_bool_le (by decide) hclosed
  have hpriority := byteCount_optionalWord_le (by decide) hpriority
  simp only [fields, byteCount_append, Finset.sum_range_succ] at hbound ⊢
  omega

theorem ShardingMessage.compact : Compact ShardingMessage.fields ShardingMessage.read := by
  intro limit fs m h
  simp only [read, Option.bind_eq_bind, Option.bind_eq_some_iff, Option.pure_def,
    Option.some.injEq] at h
  obtain ⟨name, hname, dims, hdims, replicated, hreplicated, unreduced, hunreduced, rfl⟩ := h
  have hbound := fs.sum_share_le 5
  have hname := byteCount_string_le (by decide) hname
  have hdims := DimMessage.compact.byteCount_messages_le (by decide) hdims
  have hreplicated := AxisMessage.compact.byteCount_messages_le (by decide) hreplicated
  have hunreduced := AxisMessage.compact.byteCount_messages_le (by decide) hunreduced
  simp only [fields, byteCount_append, Finset.sum_range_succ] at hbound ⊢
  omega

theorem ShardingMessage.compact_first :
    Compact ShardingMessage.fields ShardingMessage.readFirst := by
  intro limit fs m h
  have hfilter := fs.byteCount_filter_le fun f => f.number ≠ 4
  have hcompact := ShardingMessage.compact h
  omega

theorem MeshAxisMessage.compact : Compact MeshAxisMessage.fields MeshAxisMessage.read := by
  intro limit fs m h
  simp only [read, Option.bind_eq_bind, Option.bind_eq_some_iff, Option.pure_def,
    Option.some.injEq] at h
  obtain ⟨name, hname, size, hsize, rfl⟩ := h
  have hbound := fs.sum_share_le 3
  have hname := byteCount_string_le (by decide) hname
  have hsize := byteCount_word_le (by decide) hsize
  simp only [fields, byteCount_append, Finset.sum_range_succ] at hbound ⊢
  omega

theorem MeshMessage.compact : Compact MeshMessage.fields MeshMessage.read := by
  intro limit fs m h
  simp only [read, Option.bind_eq_bind, Option.bind_eq_some_iff, Option.pure_def,
    Option.some.injEq] at h
  obtain ⟨axes, haxes, ids, hids, rfl⟩ := h
  have hbound := fs.sum_share_le 3
  have haxes := MeshAxisMessage.compact.byteCount_messages_le (by decide) haxes
  have hids := byteCount_words_le (by decide) hids
  simp only [fields, byteCount_append, Finset.sum_range_succ] at hbound ⊢
  omega

theorem DimMappingMessage.compact : Compact DimMappingMessage.fields DimMappingMessage.read := by
  intro limit fs m h
  simp only [read, Option.bind_eq_bind, Option.bind_eq_some_iff, Option.pure_def,
    Option.some.injEq] at h
  obtain ⟨factors, hfactors, rfl⟩ := h
  have hbound := fs.sum_share_le 2
  have hfactors := byteCount_words_le (by decide) hfactors
  simp only [fields, Finset.sum_range_succ] at hbound ⊢
  omega

theorem MappingMessage.compact : Compact MappingMessage.fields MappingMessage.read := by
  intro limit fs m h
  simp only [read, Option.bind_eq_bind, Option.bind_eq_some_iff, Option.pure_def,
    Option.some.injEq] at h
  obtain ⟨dims, hdims, rfl⟩ := h
  have hbound := fs.sum_share_le 2
  have hdims := DimMappingMessage.compact.byteCount_messages_le (by decide) hdims
  simp only [fields, Finset.sum_range_succ] at hbound ⊢
  omega

theorem RuleMessage.compact : Compact RuleMessage.fields RuleMessage.read := by
  intro limit fs m h
  simp only [read, Option.bind_eq_bind, Option.bind_eq_some_iff, Option.pure_def,
    Option.some.injEq] at h
  obtain ⟨sizes, hsizes, operands, hoperands, results, hresults, reduction, hreduction,
    need, hneed, permutation, hpermutation, blocked, hblocked, custom, hcustom, rfl⟩ := h
  have hbound := fs.sum_share_le 9
  have hsizes := byteCount_words_le (by decide) hsizes
  have hoperands := MappingMessage.compact.byteCount_messages_le (by decide) hoperands
  have hresults := MappingMessage.compact.byteCount_messages_le (by decide) hresults
  have hreduction := byteCount_words_le (by decide) hreduction
  have hneed := byteCount_words_le (by decide) hneed
  have hpermutation := byteCount_words_le (by decide) hpermutation
  have hblocked := byteCount_words_le (by decide) hblocked
  have hcustom := byteCount_bool_le (by decide) hcustom
  simp only [fields, byteCount_append, Finset.sum_range_succ] at hbound ⊢
  omega

/-- A rule has no more factors than the bytes that its message has been read from. -/
theorem RuleMessage.sizes_le {limit : Nat} {fs : Fields} {m : RuleMessage}
    (h : read limit fs = some m) : m.sizes.length ≤ fs.byteCount := by
  simp only [read, Option.bind_eq_bind, Option.bind_eq_some_iff, Option.pure_def,
    Option.some.injEq] at h
  obtain ⟨sizes, hsizes, _, _, _, _, _, _, _, _, _, _, _, _, _, _, rfl⟩ := h
  have hbound := fs.sum_share_le 2
  have hshare := (length_packed_le_share (by decide) hsizes).1
  have hlength := length_le_packed sizes
  simp only [Finset.sum_range_succ] at hbound
  dsimp only
  omega

theorem MoveMessage.compact : Compact MoveMessage.fields MoveMessage.read := by
  intro limit fs m h
  simp only [read, Option.bind_eq_bind, Option.bind_eq_some_iff, Option.pure_def,
    Option.some.injEq] at h
  obtain ⟨axes, haxes, source, hsource, target, htarget, rfl⟩ := h
  have hbound := fs.sum_share_le 4
  have haxes := AxisMessage.compact.byteCount_messages_le (by decide) haxes
  have hsource := byteCount_word_le (by decide) hsource
  have htarget := byteCount_word_le (by decide) htarget
  simp only [fields, byteCount_append, Finset.sum_range_succ] at hbound ⊢
  omega

theorem MovesMessage.compact : Compact MovesMessage.fields MovesMessage.read := by
  intro limit fs m h
  simp only [read, Option.bind_eq_bind, Option.bind_eq_some_iff, Option.pure_def,
    Option.some.injEq] at h
  obtain ⟨moves, hmoves, rfl⟩ := h
  have hbound := fs.sum_share_le 2
  have hmoves := MoveMessage.compact.byteCount_messages_le (by decide) hmoves
  simp only [fields, Finset.sum_range_succ] at hbound ⊢
  omega

end Wire
end MeshSharding
