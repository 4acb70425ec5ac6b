import MeshSharding.Sizes

/-! Numbers as bytes of seven bits each, lowest first, where every byte but the last one
has its high bit set. -/
namespace MeshSharding

abbrev Bytes := List UInt8

namespace Varint

def write (n : Nat) : Bytes :=
  if n < 128 then [UInt8.ofNat n] else UInt8.ofNat (n % 128 + 128) :: write (n / 128)
termination_by n
decreasing_by omega

/-- Reads a number of at most `left` bytes, of which the last one has a single bit. -/
def readUpTo : Nat → Bytes → Option (Nat × Bytes)
  | 0, _ => none
  | _ + 1, [] => none
  | left + 1, b :: rest =>
    if b.toNat < 128 then
      if left = 0 ∧ 2 ≤ b.toNat then none else some (b.toNat, rest)
    else (readUpTo left rest).map fun p => (b.toNat - 128 + 128 * p.1, p.2)

/-- A word has at most ten bytes. -/
def read (bytes : Bytes) : Option (Nat × Bytes) := readUpTo 10 bytes

theorem readUpTo_shorter {left : Nat} {bytes : Bytes} {p : Nat × Bytes}
    (h : readUpTo left bytes = some p) : p.2.length < bytes.length := by
  induction left generalizing bytes p with
  | zero => simp [readUpTo] at h
  | succ left ih =>
    cases bytes with
    | nil => simp [readUpTo] at h
    | cons b rest =>
      simp only [readUpTo] at h
      split at h
      · split at h
        · simp at h
        · simp only [Option.some.injEq] at h; subst h; simp
      · obtain ⟨q, hq, rfl⟩ := Option.map_eq_some_iff.1 h
        have := ih hq
        simp only [List.length_cons]; omega

theorem read_shorter {bytes : Bytes} {p : Nat × Bytes} (h : read bytes = some p) :
    p.2.length < bytes.length := readUpTo_shorter h

theorem write_ne_nil (n : Nat) : write n ≠ [] := by
  unfold write; split <;> simp

/-- What is read from at most `left + 1` bytes is below this bound. -/
def bound : Nat → Nat
  | 0 => 2
  | left + 1 => 128 * bound left

theorem readUpTo_write_append (left n : Nat) (rest : Bytes) (h : n < bound left) :
    readUpTo (left + 1) (write n ++ rest) = some (n, rest) := by
  induction left generalizing n with
  | zero =>
    have h2 : n < 2 := h
    have hn : n < 128 := by omega
    have hb : (UInt8.ofNat n).toNat = n := by simp; omega
    rw [write, if_pos hn]
    simp only [List.cons_append, List.nil_append, readUpTo, hb, hn, if_true]
    rw [if_neg (by omega)]
  | succ left ih =>
    by_cases hn : n < 128
    · have hb : (UInt8.ofNat n).toNat = n := by simp; omega
      rw [write, if_pos hn]
      simp [readUpTo, hb, hn]
    · have hb : (UInt8.ofNat (n % 128 + 128)).toNat = n % 128 + 128 := by simp; omega
      have hq : n / 128 < bound left := Nat.div_lt_of_lt_mul h
      rw [write, if_neg hn, List.cons_append, readUpTo, hb, if_neg (by omega), ih _ hq]
      simp only [Option.map_some, Option.some.injEq, Prod.mk.injEq, and_true]
      omega

/-- A word is read back from its bytes, whatever is behind them. -/
theorem read_write_append {n : Nat} (rest : Bytes) (h : n < wordBound) :
    read (write n ++ rest) = some (n, rest) :=
  readUpTo_write_append 9 n rest h

end Varint
end MeshSharding
