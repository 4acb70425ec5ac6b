import Mathlib.Data.List.Perm.Basic
import MeshSharding.Resharding.Plan

/-! The order in which moves are made. It lists every move once, all moves out of a
dimension before the moves into it, and the moves into one dimension as they were given. -/
namespace MeshSharding
namespace Resharding

variable {moves : List Move} {made : List Nat}

theorem precedes_iff {i j : Nat} : precedes moves i j = true ↔
    ∃ a b, moves[i]? = some a ∧ moves[j]? = some b ∧
      (a.source = b.target ∨ (i < j ∧ a.target = b.target)) := by
  unfold precedes
  cases moves[i]? <;> cases moves[j]? <;> simp

theorem lt_of_precedes {i j : Nat} (h : precedes moves i j = true) : i < moves.length := by
  obtain ⟨a, _, ha, _⟩ := precedes_iff.1 h
  exact (List.getElem?_eq_some_iff.1 ha).1

/-- A move can be made once everything is made that it waits for. -/
theorem isReady_eq_true {j : Nat} : isReady moves made j = true ↔
    j ∉ made ∧ ∀ i, precedes moves i j = true → i ∈ made := by
  simp only [isReady, decide_eq_true_eq, Bool.decide_and, Bool.and_eq_true, List.all_eq_true,
    List.mem_range, Bool.or_eq_true, Bool.not_eq_true', List.contains_iff_mem]
  refine and_congr_right fun _ => forall_congr' fun i => ⟨fun h hi => ?_, fun h _ => ?_⟩
  · exact (h (lt_of_precedes hi)).resolve_left (by simp [hi])
  · cases hi : precedes moves i j with
    | false => exact .inl rfl
    | true => exact .inr (h hi)

/-- The numbers of moves that were made, each when nothing held it back any more. -/
structure Made (moves : List Move) (made : List Nat) : Prop where
  lt : ∀ i ∈ made, i < moves.length
  nodup : made.Nodup
  closed : ∀ j ∈ made, ∀ i, precedes moves i j = true → i ∈ made
  ordered : made.Pairwise fun i j => precedes moves j i = false

theorem Made.snoc (h : Made moves made) {j : Nat} (hj : j < moves.length)
    (hr : isReady moves made j = true) : Made moves (made ++ [j]) := by
  obtain ⟨hnot, hbefore⟩ := isReady_eq_true.1 hr
  refine ⟨?_, ?_, ?_, ?_⟩
  · simp only [List.mem_append, List.mem_singleton]
    rintro i (hi | rfl)
    · exact h.lt i hi
    · exact hj
  · refine List.nodup_append.2 ⟨h.nodup, by simp, ?_⟩
    intro i hi k hk
    obtain rfl := List.mem_singleton.1 hk
    exact fun e => hnot (e ▸ hi)
  · simp only [List.mem_append, List.mem_singleton]
    rintro k (hk | rfl) i hi
    · exact .inl (h.closed k hk i hi)
    · exact .inl (hbefore i hi)
  · refine List.pairwise_append.2 ⟨h.ordered, by simp, ?_⟩
    intro i hi k hk
    obtain rfl := List.mem_singleton.1 hk
    -- a move that `i` had to wait for was made before `i`
    by_contra hp
    exact hnot (h.closed i hi k (by simpa using hp))

theorem made_extendOrder (n : Nat) (h : Made moves made) :
    Made moves (extendOrder moves n made) := by
  induction n generalizing made with
  | zero => exact h
  | succ n ih =>
    unfold extendOrder
    split
    · rename_i j hj
      exact ih (h.snoc (List.mem_range.1 (List.mem_of_find?_eq_some hj))
        (List.find?_some hj))
    · exact h

theorem made_nil (moves : List Move) : Made moves [] :=
  ⟨by simp, by simp, by simp, List.Pairwise.nil⟩

theorem Made.subperm (h : Made moves made) : made.Subperm (List.range moves.length) :=
  List.subperm_of_subset h.nodup fun i hi => List.mem_range.2 (h.lt i hi)

/-- Were all numbers made, there would be as many as moves. -/
theorem Made.exists_not_mem (h : Made moves made) (hlen : made.length ≠ moves.length) :
    ∃ i < moves.length, i ∉ made := by
  by_contra hall
  push Not at hall
  have hle := (List.subperm_of_subset (List.nodup_range (n := moves.length))
    fun i hi => hall i (List.mem_range.1 hi)).length_le
  have hge := h.subperm.length_le
  rw [List.length_range] at hle hge
  omega

theorem made_of_orderMoves {order : List Nat} (h : orderMoves moves = .ok order) :
    Made moves order ∧ order.Perm (List.range moves.length) := by
  simp only [orderMoves] at h
  split at h
  · rename_i hlen
    cases h
    have hmade := made_extendOrder moves.length (made_nil moves)
    exact ⟨hmade, hmade.subperm.perm_of_length_le (by simp [hlen])⟩
  · cases h

section pick

theorem mem_pick {l : List Nat} {move : Move} :
    move ∈ pick moves l ↔ ∃ i ∈ l, moves[i]? = some move := by simp [pick]

theorem pick_perm {l r : List Nat} (h : l.Perm r) : (pick moves l).Perm (pick moves r) :=
  h.filterMap _

theorem pick_range (moves : List Move) : pick moves (List.range moves.length) = moves := by
  unfold pick
  induction moves with
  | nil => rfl
  | cons move rest ih =>
    rw [List.length_cons, List.range_succ_eq_map, List.filterMap_cons, List.filterMap_map]
    simpa [Function.comp_def] using ih

theorem filter_pick (p : Move → Bool) (l : List Nat) :
    (pick moves l).filter p = pick moves (l.filter fun i => moves[i]?.any p) := by
  induction l with
  | nil => rfl
  | cons i rest ih =>
    unfold pick at ih ⊢
    cases hm : moves[i]? with
    | none => simp [hm, ih]
    | some move => by_cases hp : p move = true <;> simp [hm, hp, ih]

end pick

/-- The moves that an order picks are the given ones. -/
theorem perm_of_orderMoves {order : List Nat} (h : orderMoves moves = .ok order) :
    (pick moves order).Perm moves := by
  calc (pick moves order).Perm (pick moves (List.range moves.length)) :=
      pick_perm (made_of_orderMoves h).2
    _ = moves := pick_range moves

/-- Moves into one dimension keep their order. -/
theorem filter_target_of_orderMoves {order : List Nat} (h : orderMoves moves = .ok order)
    (dim : Nat) : (pick moves order).filter (·.target = dim)
      = moves.filter (·.target = dim) := by
  obtain ⟨hmade, hperm⟩ := made_of_orderMoves h
  have hsorted : (order.filter fun i => moves[i]?.any (·.target = dim)).Pairwise (· < ·) := by
    refine List.Pairwise.imp_of_mem ?_ ((hmade.ordered.and hmade.nodup).filter _)
    intro i k hi hk hik
    by_contra hlt
    obtain ⟨a, ha, hta⟩ := (Option.any_eq_true _ _).1 (List.mem_filter.1 hi).2
    obtain ⟨b, hb, htb⟩ := (Option.any_eq_true _ _).1 (List.mem_filter.1 hk).2
    have htarget : b.target = a.target := by simp at hta htb; rw [hta, htb]
    have hprec : precedes moves k i = true :=
      precedes_iff.2 ⟨b, a, hb, ha, .inr ⟨by have := hik.2; omega, htarget⟩⟩
    rw [hik.1] at hprec
    cases hprec
  have hrange : ((List.range moves.length).filter fun i =>
      moves[i]?.any (·.target = dim)).Pairwise (· < ·) := List.pairwise_lt_range.filter _
  have heq := (hperm.filter _).eq_of_pairwise (fun a b _ _ h1 h2 => by omega) hsorted hrange
  rw [filter_pick, heq, ← filter_pick, pick_range]

/-- A move out of a dimension comes before the moves into it. -/
theorem ordered_of_orderMoves {order : List Nat} (h : orderMoves moves = .ok order) :
    (pick moves order).Pairwise fun a b => b.source ≠ a.target := by
  refine List.pairwise_filterMap.2 ((made_of_orderMoves h).1.ordered.imp ?_)
  intro i k hik a ha b hb hsource
  have hprec : precedes moves k i = true := precedes_iff.2 ⟨b, a, hb, ha, .inl hsource⟩
  rw [hik] at hprec
  cases hprec

end Resharding
end MeshSharding
