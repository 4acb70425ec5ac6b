import MeshSharding.Proofs.AxisList.Subdivision
import MeshSharding.Proofs.Resharding.MoveOrder
import MeshSharding.Resharding.Countdown

/-! The order of moves by counting is the order by `precedes`. A move that links hold back from
further away is held back by a neighbour as well, and as many links are taken away from a count as
there are. The order keeps to every constraint, and moves are left over only if no order does. -/
namespace MeshSharding
namespace Resharding

variable {moves : List Move} {made : List Nat} {i j : Nat}

section links

theorem nextInto?_eq_some {move : Move} (h : nextInto? moves i move = some j) :
    i < j ∧ ∃ b, moves[j]? = some b ∧ b.target = move.target := by
  obtain ⟨hany, hmem, -⟩ := List.find?_range'_eq_some.1 h
  obtain ⟨b, hb, htarget⟩ := (Option.any_eq_true _ _).1 hany
  exact ⟨(List.mem_range'_1.1 hmem).1, b, hb, of_decide_eq_true htarget⟩

/-- The next move is not behind any other move into the dimension. -/
theorem exists_nextInto? {move b : Move} (hlt : i < j) (hb : moves[j]? = some b)
    (htarget : b.target = move.target) : ∃ k, nextInto? moves i move = some k ∧ k ≤ j := by
  have hj := (List.getElem?_eq_some_iff.1 hb).1
  have hmem : j ∈ List.range' (i + 1) (moves.length - (i + 1)) :=
    List.mem_range'_1.2 ⟨hlt, by omega⟩
  have hany : (moves[j]?.any (·.target = move.target)) = true := by simp [hb, htarget]
  obtain ⟨k, hk⟩ := Option.isSome_iff_exists.1
    (List.find?_isSome.2 ⟨j, hmem, hany⟩ : (nextInto? moves i move).isSome = true)
  refine ⟨k, hk, Nat.not_lt.1 fun hjk => ?_⟩
  have hnot := (List.find?_range'_eq_some.1 hk).2.2 j hlt hjk
  rw [hany] at hnot
  cases hnot

theorem mem_linksFrom : j ∈ linksFrom moves i ↔
    ∃ a, moves[i]? = some a ∧
      (nextInto? moves i a = some j ∨ ∃ b, moves[j]? = some b ∧ a.source = b.target) := by
  rw [linksFrom]
  cases ha : moves[i]? with
  | none => simp
  | some a =>
    have hsource : (j < moves.length ∧ moves[j]?.any (·.target = a.source) = true) ↔
        ∃ b, moves[j]? = some b ∧ a.source = b.target := by
      simp only [Option.any_eq_true, decide_eq_true_eq]
      exact ⟨fun ⟨_, b, hb, heq⟩ => ⟨b, hb, heq.symm⟩,
        fun ⟨b, hb, heq⟩ => ⟨(List.getElem?_eq_some_iff.1 hb).1, b, hb, heq.symm⟩⟩
    simp only [List.mem_append, Option.mem_toList, List.mem_filter, List.mem_range, hsource,
      Option.some.injEq, exists_eq_left']

theorem precedes_of_mem_linksFrom (h : j ∈ linksFrom moves i) : precedes moves i j = true := by
  obtain ⟨a, ha, hnext | ⟨b, hb, hsource⟩⟩ := mem_linksFrom.1 h
  · obtain ⟨hlt, b, hb, htarget⟩ := nextInto?_eq_some hnext
    exact precedes_iff.2 ⟨a, b, ha, hb, .inr ⟨hlt, htarget.symm⟩⟩
  · exact precedes_iff.2 ⟨a, b, ha, hb, .inl hsource⟩

/-- What holds a move back is made once all moves are that are linked to it. -/
theorem mem_of_precedes (hmade : Made moves made)
    (hlinks : ∀ i, j ∈ linksFrom moves i → i ∈ made) (h : precedes moves i j = true) :
    i ∈ made := by
  obtain ⟨a, b, ha, hb, hsource | ⟨hlt, htarget⟩⟩ := precedes_iff.1 h
  · exact hlinks i (mem_linksFrom.2 ⟨a, ha, .inr ⟨b, hb, hsource⟩⟩)
  · -- from neighbour to neighbour up to `j`
    clear h
    induction hn : j - i using Nat.strongRecOn generalizing i a with
    | ind n ih =>
      obtain ⟨k, hk, hkj⟩ := exists_nextInto? (i := i) hlt hb htarget.symm
      rcases Nat.eq_or_lt_of_le hkj with rfl | hkj
      · exact hlinks i (mem_linksFrom.2 ⟨a, ha, .inl hk⟩)
      · obtain ⟨hik, c, hc, hctarget⟩ := nextInto?_eq_some hk
        have hmem : k ∈ made := ih (j - k) (by omega) c hc hkj (hctarget.trans htarget) rfl
        exact hmade.closed k hmem i
          (precedes_iff.2 ⟨a, c, ha, hc, .inr ⟨hik, hctarget.symm⟩⟩)

/-- The links from moves that are still to be made. -/
def pending (moves : List Move) (made : List Nat) : List Nat :=
  ((List.range moves.length).filter fun i => i ∉ made).flatMap (linksFrom moves)

theorem mem_pending : j ∈ pending moves made ↔ ∃ i, i ∉ made ∧ j ∈ linksFrom moves i := by
  simp only [pending, List.mem_flatMap, List.mem_filter, List.mem_range, decide_eq_true_eq]
  refine exists_congr fun i => ⟨fun ⟨⟨_, hnot⟩, hlink⟩ => ⟨hnot, hlink⟩, fun ⟨hnot, hlink⟩ => ?_⟩
  exact ⟨⟨lt_of_precedes (precedes_of_mem_linksFrom hlink), hnot⟩, hlink⟩

theorem isReady_iff (hmade : Made moves made) :
    isReady moves made j = true ↔ j ∉ made ∧ (pending moves made).count j = 0 := by
  rw [isReady_eq_true, List.count_eq_zero]
  refine and_congr_right fun _ => ⟨fun h hpending => ?_, fun h i hprec => ?_⟩
  · obtain ⟨i, hnot, hlink⟩ := mem_pending.1 hpending
    exact hnot (h i (precedes_of_mem_linksFrom hlink))
  · refine mem_of_precedes hmade (fun k hk => ?_) hprec
    by_contra hnot
    exact h (mem_pending.2 ⟨k, hnot, hk⟩)

end links

namespace Queue

variable {q : Queue} {links : List Nat} {count : Nat}

theorem counts_release (h : q.counts[j]? = some count) (k : Nat) :
    (q.release k).counts[j]? = some (if k = j then count - 1 else count) := by
  rw [release, List.getElem?_modify, h]
  rfl

theorem counts_foldl_release (h : q.counts[j]? = some count) :
    (links.foldl release q).counts[j]? = some (count - links.count j) := by
  induction links generalizing q count with
  | nil => exact h
  | cons k links ih =>
    rw [List.foldl_cons, ih (counts_release h k), List.count_cons]
    by_cases hk : k = j
    · subst hk
      simp
      omega
    · simp [hk]

/-- A move is ready once the last link to it is taken away. -/
theorem mem_ready_release {k : Nat} (h : q.counts[k]? = some count) (hpos : 0 < count) :
    j ∈ (q.release k).ready ↔ j ∈ q.ready ∨ (j = k ∧ count = 1) := by
  have hreleased := counts_release h k
  rw [if_pos rfl] at hreleased
  rw [release]
  dsimp only
  split <;> rename_i hzero
  · have hone : count = 1 := by
      have := Option.some.inj (hreleased.symm.trans hzero)
      omega
    simp [hone, or_comm]
  · have hone : count ≠ 1 := by
      rintro rfl
      exact hzero hreleased
    simp [hone]

/-- If no count falls below zero, the moves become ready whose links are all taken away. -/
theorem mem_ready_foldl_release
    (h : ∀ k ∈ links, ∃ count, q.counts[k]? = some count ∧ links.count k ≤ count) :
    j ∈ (links.foldl release q).ready ↔
      j ∈ q.ready ∨ (j ∈ links ∧ q.counts[j]? = some (links.count j)) := by
  induction links generalizing q with
  | nil => simp
  | cons k links ih =>
    obtain ⟨count, hcount, hle⟩ := h k (List.mem_cons_self ..)
    rw [List.count_cons_self] at hle
    rw [List.foldl_cons, ih, mem_ready_release hcount (Nat.lt_of_lt_of_le (Nat.succ_pos _) hle)]
    · by_cases hk : k = j
      · subst hk
        rw [counts_release hcount, if_pos rfl, hcount, List.count_cons_self]
        simp only [List.mem_cons, true_or, true_and, Option.some.injEq]
        have hpos : k ∈ links ↔ 0 < links.count k := List.count_pos_iff.symm
        rw [hpos]
        constructor
        · rintro ((hmem | hone) | ⟨hpos, heq⟩)
          · exact .inl hmem
          · exact .inr (by omega)
          · exact .inr (by omega)
        · rintro (hmem | heq)
          · exact .inl (.inl hmem)
          · rcases Nat.eq_zero_or_pos (links.count k) with hzero | hpos
            · exact .inl (.inr (by omega))
            · exact .inr ⟨hpos, by omega⟩
      · have hcounts : (q.release k).counts[j]? = q.counts[j]? := by
          rw [release, List.getElem?_modify]
          simp [hk]
        have hne : j ≠ k := Ne.symm hk
        simp [hcounts, hne, List.count_cons_of_ne hk]
    · intro l hl
      obtain ⟨c, hc, hlec⟩ := h l (List.mem_cons_of_mem _ hl)
      refine ⟨_, counts_release hc k, ?_⟩
      by_cases hkl : k = l
      · subst hkl
        rw [List.count_cons_self] at hlec
        rw [if_pos rfl]
        omega
      · rw [List.count_cons_of_ne hkl] at hlec
        rwa [if_neg hkl]

theorem pairwise_foldl_release (h : q.ready.Pairwise (· < ·)) :
    (links.foldl release q).ready.Pairwise (· < ·) := by
  induction links generalizing q with
  | nil => exact h
  | cons k links ih =>
    refine ih ?_
    rw [release]
    dsimp only
    split
    · exact Sorted.pairwise_insert k h
    · exact h

/-- At first a move has one for each link to it. -/
theorem getElem?_tally {counts : List Nat} (h : counts[j]? = some count) :
    (links.foldl (fun counts j => counts.modify j (· + 1)) counts)[j]?
      = some (count + links.count j) := by
  induction links generalizing counts count with
  | nil => exact h
  | cons k links ih =>
    have hk : (counts.modify k (· + 1))[j]? = some (if k = j then count + 1 else count) := by
      rw [List.getElem?_modify, h]
      rfl
    rw [List.foldl_cons, ih hk, List.count_cons]
    by_cases hk : k = j
    · simp [hk]
      omega
    · simp [hk]

end Queue

/-- The queue counts the links from the moves that are still to be made. -/
structure Tracks (moves : List Move) (made : List Nat) (q : Queue) : Prop where
  counts : ∀ j < moves.length, q.counts[j]? = some ((pending moves made).count j)
  ready : q.ready = (List.range moves.length).filter (isReady moves made)

theorem tracks_ofMoves (moves : List Move) : Tracks moves [] (.ofMoves moves) := by
  have hall : (List.range moves.length).filter (fun i => i ∉ ([] : List Nat))
      = List.range moves.length := List.filter_eq_self.2 fun i _ => by simp
  have hcounts : ∀ j < moves.length, (Queue.ofMoves moves).counts[j]?
      = some ((pending moves []).count j) := by
    intro j hj
    have h : (Queue.ofMoves moves).counts[j]?
        = some (0 + ((List.range moves.length).flatMap (linksFrom moves)).count j) :=
      Queue.getElem?_tally (List.getElem?_replicate_of_lt hj)
    rw [h, Nat.zero_add, pending, hall]
  refine ⟨hcounts, List.filter_congr fun j hj => ?_⟩
  have hcount := hcounts j (List.mem_range.1 hj)
  rw [Queue.ofMoves] at hcount
  dsimp only at hcount
  rw [hcount, Bool.eq_iff_iff, decide_eq_true_iff, isReady_iff (made_nil moves), Option.some.injEq]
  simp

/-- Of the links that are pending, those from a move that is made are taken away. -/
theorem count_pending (hi : i < moves.length) (hnot : i ∉ made) (j : Nat) :
    (pending moves made).count j
      = (linksFrom moves i).count j + (pending moves (made ++ [i])).count j := by
  have hperm : ((List.range moves.length).filter fun k => k ∉ made).Perm
      (i :: (List.range moves.length).filter fun k => k ∉ made ++ [i]) := by
    refine (List.perm_ext_iff_of_nodup (List.nodup_range.filter _)
      (List.nodup_cons.2 ⟨by simp, List.nodup_range.filter _⟩)).2 fun k => ?_
    simp only [List.mem_filter, List.mem_range, decide_eq_true_eq, List.mem_cons, List.mem_append,
      not_or, List.not_mem_nil, or_false]
    by_cases hk : k = i
    · simp [hk, hi, hnot]
    · simp [hk]
  rw [pending, (hperm.flatMap_right _).count_eq, List.flatMap_cons, List.count_append, pending]

section step

variable {counts ready : List Nat}

/-- A move that can be made holds back other moves only that are still to be made. -/
theorem open_of_mem_linksFrom (hmade : Made moves made) (hready : isReady moves made i = true)
    (h : j ∈ linksFrom moves i) : j < moves.length ∧ j ∉ made ∧ j ≠ i := by
  obtain ⟨hnot, hfree⟩ := (isReady_iff hmade).1 hready
  have hprec := precedes_of_mem_linksFrom h
  obtain ⟨_, b, _, hb, _⟩ := precedes_iff.1 hprec
  refine ⟨(List.getElem?_eq_some_iff.1 hb).1, fun hj => hnot (hmade.closed j hj i hprec), ?_⟩
  rintro rfl
  exact List.count_eq_zero.1 hfree (mem_pending.2 ⟨j, hnot, h⟩)

theorem mem_ready_step (hmade : Made moves made) (hi : i < moves.length)
    (hready : isReady moves made i = true)
    (hcounts : ∀ j < moves.length, counts[j]? = some ((pending moves made).count j))
    (hrest : ∀ j, j ∈ ready ↔ (j < moves.length ∧ isReady moves made j = true) ∧ j ≠ i) :
    j ∈ ((linksFrom moves i).foldl Queue.release ⟨counts, ready⟩).ready ↔
      j < moves.length ∧ isReady moves (made ++ [i]) j = true := by
  have hcount := fun j => count_pending hi ((isReady_iff hmade).1 hready).1 j
  have henough : ∀ k ∈ linksFrom moves i, ∃ count, counts[k]? = some count ∧
      (linksFrom moves i).count k ≤ count := fun k hk =>
    ⟨_, hcounts k (open_of_mem_linksFrom hmade hready hk).1, (hcount k).symm ▸ Nat.le_add_right ..⟩
  rw [Queue.mem_ready_foldl_release henough, hrest, isReady_iff hmade,
    isReady_iff (hmade.snoc hi hready), List.mem_append, List.mem_singleton, not_or]
  have hj := hcount j
  constructor
  · rintro (⟨⟨hlt, hout, hzero⟩, hne⟩ | ⟨hlink, hall⟩)
    · exact ⟨hlt, ⟨hout, hne⟩, by omega⟩
    · obtain ⟨hlt, hout, hne⟩ := open_of_mem_linksFrom hmade hready hlink
      have hall := Option.some.inj ((hcounts j hlt).symm.trans hall)
      exact ⟨hlt, ⟨hout, hne⟩, by omega⟩
  · rintro ⟨hlt, ⟨hout, hne⟩, hzero⟩
    by_cases hlink : j ∈ linksFrom moves i
    · exact .inr ⟨hlink, (hcounts j hlt).trans (congrArg some (by omega))⟩
    · have hnone := List.count_eq_zero.2 hlink
      exact .inl ⟨⟨hlt, hout, by omega⟩, hne⟩

theorem Tracks.step (hmade : Made moves made) (h : Tracks moves made ⟨counts, i :: ready⟩) :
    i < moves.length ∧ isReady moves made i = true ∧
      Tracks moves (made ++ [i]) ((linksFrom moves i).foldl Queue.release ⟨counts, ready⟩) := by
  have hall : i :: ready = (List.range moves.length).filter (isReady moves made) := h.ready
  have hcounts : ∀ j < moves.length, counts[j]? = some ((pending moves made).count j) := h.counts
  obtain ⟨hi, hready⟩ := List.mem_filter.1 (hall ▸ List.mem_cons_self ..)
  have hi := List.mem_range.1 hi
  have hsorted : (i :: ready).Pairwise (· < ·) := hall ▸ List.pairwise_lt_range.filter _
  obtain ⟨hfirst, hsorted⟩ := List.pairwise_cons.1 hsorted
  have hrest : ∀ j, j ∈ ready ↔ (j < moves.length ∧ isReady moves made j = true) ∧ j ≠ i := by
    intro j
    rw [← List.mem_range, ← List.mem_filter, ← hall, List.mem_cons]
    refine ⟨fun hj => ⟨.inr hj, (Nat.ne_of_lt (hfirst j hj)).symm⟩, fun ⟨hj, hne⟩ => ?_⟩
    exact hj.resolve_left hne
  refine ⟨hi, hready, fun j hj => ?_, ?_⟩
  · have hfold : ((linksFrom moves i).foldl Queue.release ⟨counts, ready⟩).counts[j]? = some _ :=
      Queue.counts_foldl_release (hcounts j hj)
    rw [hfold, count_pending hi ((isReady_iff hmade).1 hready).1, Nat.add_sub_cancel_left]
  · have hmem : ∀ j, j ∈ ((linksFrom moves i).foldl Queue.release ⟨counts, ready⟩).ready ↔
        j ∈ (List.range moves.length).filter (isReady moves (made ++ [i])) := fun j => by
      rw [mem_ready_step hmade hi hready hcounts hrest, List.mem_filter, List.mem_range]
    have hreleased : ((linksFrom moves i).foldl Queue.release
        ⟨counts, ready⟩).ready.Pairwise (· < ·) := Queue.pairwise_foldl_release hsorted
    have hperm := (List.perm_ext_iff_of_nodup (hreleased.imp Nat.ne_of_lt)
      (List.nodup_range.filter _)).2 hmem
    exact hperm.eq_of_pairwise (fun a b _ _ hab hba => absurd hab (Nat.lt_asymm hba)) hreleased
      (List.pairwise_lt_range.filter _)

end step

/-- Counting makes the moves in the order in which nothing holds them back. -/
theorem countdown_eq_extendOrder (n : Nat) {q : Queue} (hmade : Made moves made)
    (h : Tracks moves made q) : countdown moves n q made = extendOrder moves n made := by
  induction n generalizing q made with
  | zero => rfl
  | succ n ih =>
    obtain ⟨counts, ready⟩ := q
    have hfind : (List.range moves.length).find? (isReady moves made) = ready.head? := by
      rw [← List.head?_filter, ← h.ready]
    rw [extendOrder, hfind]
    cases ready with
    | nil => rfl
    | cons i ready =>
      obtain ⟨hi, hready, hnext⟩ := h.step hmade
      exact ih (hmade.snoc hi hready) hnext

theorem sortMoves_eq_orderMoves (moves : List Move) : sortMoves moves = orderMoves moves := by
  rw [sortMoves, orderMoves, countdown_eq_extendOrder _ (made_nil moves) (tracks_ofMoves moves)]

section rounds

/-- The rounds are used up, or nothing is left that can be made. -/
theorem length_extendOrder_or (n : Nat) (made : List Nat) :
    (extendOrder moves n made).length = made.length + n ∨
      ∀ j < moves.length, isReady moves (extendOrder moves n made) j = false := by
  induction n generalizing made with
  | zero => exact .inl rfl
  | succ n ih =>
    rw [extendOrder]
    split
    · refine (ih _).imp_left fun h => ?_
      rw [h, List.length_append, List.length_singleton]
      omega
    · rename_i hnone
      refine .inr fun j hj => ?_
      simpa using List.find?_eq_none.1 hnone j (List.mem_range.2 hj)

theorem extendOrder_of_idle (n : Nat) (h : ∀ j < moves.length, isReady moves made j = false) :
    extendOrder moves n made = made := by
  cases n with
  | zero => rfl
  | succ n =>
    have hnone : (List.range moves.length).find? (isReady moves made) = none :=
      List.find?_eq_none.2 fun j hj => by simp [h j (List.mem_range.1 hj)]
    rw [extendOrder, hnone]

theorem extendOrder_add (n k : Nat) (made : List Nat) :
    extendOrder moves (n + k) made = extendOrder moves k (extendOrder moves n made) := by
  induction n generalizing made with
  | zero => rw [Nat.zero_add, extendOrder]
  | succ n ih =>
    rw [Nat.succ_add, extendOrder, extendOrder]
    cases hfind : (List.range moves.length).find? (isReady moves made) with
    | some j => exact ih _
    | none =>
      refine (extendOrder_of_idle k fun j hj => ?_).symm
      simpa using List.find?_eq_none.1 hfind j (List.mem_range.2 hj)

/-- No move is made twice, so as many rounds as there are moves leave nothing that can be made. -/
theorem countdown_of_le {n : Nat} (h : moves.length ≤ n) :
    countdown moves n (.ofMoves moves) [] = countdown moves moves.length (.ofMoves moves) [] := by
  have hmade := made_extendOrder moves.length (made_nil moves)
  have hidle : ∀ j < moves.length,
      isReady moves (extendOrder moves moves.length []) j = false := by
    rcases length_extendOrder_or moves.length [] with hlen | hidle
    · intro j hj
      rw [List.length_nil, Nat.zero_add] at hlen
      have hperm := hmade.subperm.perm_of_length_le (by rw [hlen, List.length_range])
      have hmem := hperm.mem_iff.2 (List.mem_range.2 hj)
      simp [isReady, hmem]
    · exact hidle
  obtain ⟨k, rfl⟩ := Nat.exists_eq_add_of_le h
  rw [countdown_eq_extendOrder _ (made_nil moves) (tracks_ofMoves moves),
    countdown_eq_extendOrder _ (made_nil moves) (tracks_ofMoves moves), extendOrder_add,
    extendOrder_of_idle k hidle]

end rounds

section constraints

/-- The order lists every move once, a move out of a dimension before each move into it, and the
moves into one dimension as they are given. -/
structure Respects (moves : List Move) (order : List Nat) : Prop where
  perm : order.Perm (List.range moves.length)
  leaves : ∀ i j a b, moves[i]? = some a → moves[j]? = some b → a.source = b.target →
    order.idxOf i < order.idxOf j
  keeps : ∀ i j a b, moves[i]? = some a → moves[j]? = some b → i < j → a.target = b.target →
    order.idxOf i < order.idxOf j

theorem Respects.idxOf_lt {order : List Nat} (h : Respects moves order)
    (hprec : precedes moves i j = true) : order.idxOf i < order.idxOf j := by
  obtain ⟨a, b, ha, hb, hsource | ⟨hlt, htarget⟩⟩ := precedes_iff.1 hprec
  · exact h.leaves i j a b ha hb hsource
  · exact h.keeps i j a b ha hb hlt htarget

/-- A move that holds itself back is never made. -/
theorem not_precedes_self_of_mem_extendOrder (n : Nat)
    (h : ∀ i ∈ made, precedes moves i i = false) :
    ∀ i ∈ extendOrder moves n made, precedes moves i i = false := by
  induction n generalizing made with
  | zero => exact h
  | succ n ih =>
    rw [extendOrder]
    split
    · rename_i j hj
      refine ih (List.forall_mem_append.2 ⟨h, List.forall_mem_singleton.2 ?_⟩)
      obtain ⟨hnot, hbefore⟩ := isReady_eq_true.1 (List.find?_some hj)
      exact Bool.eq_false_iff.2 fun hself => hnot (hbefore j hself)
    · exact h

theorem Made.idxOf_lt (h : Made moves made) (hself : precedes moves j j = false) (hj : j ∈ made)
    (hprec : precedes moves i j = true) : made.idxOf i < made.idxOf j := by
  have hi := h.closed j hj i hprec
  rcases Nat.lt_trichotomy (made.idxOf i) (made.idxOf j) with hlt | heq | hgt
  · exact hlt
  · rw [(List.idxOf_inj hi).1 heq, hself] at hprec
    cases hprec
  · have hordered := List.pairwise_iff_getElem.1 h.ordered _ _ (List.idxOf_lt_length_iff.2 hj)
      (List.idxOf_lt_length_iff.2 hi) hgt
    rw [List.getElem_idxOf, List.getElem_idxOf, hprec] at hordered
    cases hordered

theorem respects_of_orderMoves {order : List Nat} (h : orderMoves moves = .ok order) :
    Respects moves order := by
  obtain ⟨hmade, hperm⟩ := made_of_orderMoves h
  have horder : order = extendOrder moves moves.length [] := by
    simp only [orderMoves] at h
    split at h <;> cases h
    rfl
  have hlt : ∀ {i j : Nat} {b : Move}, moves[j]? = some b → precedes moves i j = true →
      order.idxOf i < order.idxOf j := fun {i j b} hb hprec => by
    have hj := hperm.mem_iff.2 (List.mem_range.2 (List.getElem?_eq_some_iff.1 hb).1)
    refine hmade.idxOf_lt ?_ hj hprec
    exact not_precedes_self_of_mem_extendOrder moves.length (by simp) j (horder ▸ hj)
  exact ⟨hperm,
    fun i j a b ha hb hsource => hlt hb (precedes_iff.2 ⟨a, b, ha, hb, .inl hsource⟩),
    fun i j a b ha hb hij htarget => hlt hb (precedes_iff.2 ⟨a, b, ha, hb, .inr ⟨hij, htarget⟩⟩)⟩

/-- What cannot be made is held back by moves that cannot be made. -/
theorem stuck_of_orderMoves {stuck : List Nat} (h : orderMoves moves = .error stuck) :
    stuck ≠ [] ∧ stuck.Nodup ∧ ∀ j ∈ stuck, ∃ i ∈ stuck, j ∈ linksFrom moves i := by
  have hmade := made_extendOrder moves.length (made_nil moves)
  simp only [orderMoves] at h
  split at h <;> rename_i hlen <;> cases h
  have hmem : ∀ {i}, i ∈ (List.range moves.length).filter
      (fun i => i ∉ extendOrder moves moves.length []) ↔
        i < moves.length ∧ i ∉ extendOrder moves moves.length [] := by simp
  refine ⟨fun hnil => ?_, List.nodup_range.filter _, fun j hj => ?_⟩
  · obtain ⟨i, hi, hnot⟩ := hmade.exists_not_mem hlen
    exact List.not_mem_nil (hnil ▸ hmem.2 ⟨hi, hnot⟩)
  · obtain ⟨hlt, hnot⟩ := hmem.1 hj
    have hidle := (length_extendOrder_or moves.length []).resolve_left
      (by simpa using hlen) j hlt
    have hpending : j ∈ pending moves (extendOrder moves moves.length []) := by
      by_contra hfree
      rw [(isReady_iff hmade).2 ⟨hnot, List.count_eq_zero.2 hfree⟩] at hidle
      cases hidle
    obtain ⟨i, hout, hlink⟩ := mem_pending.1 hpending
    exact ⟨i, hmem.2 ⟨lt_of_precedes (precedes_of_mem_linksFrom hlink), hout⟩, hlink⟩

/-- Moves each of which is held back by one of them are in no order. -/
theorem Respects.not_stuck {order stuck : List Nat} (h : Respects moves order)
    (hstuck : ∀ j ∈ stuck, ∃ i ∈ stuck, j ∈ linksFrom moves i) : stuck = [] := by
  refine List.eq_nil_iff_forall_not_mem.2 fun j hj => ?_
  induction hn : order.idxOf j using Nat.strongRecOn generalizing j with
  | ind n ih =>
    obtain ⟨i, hi, hlink⟩ := hstuck j hj
    exact ih _ (hn ▸ h.idxOf_lt (precedes_of_mem_linksFrom hlink)) i hi rfl

/-- Counting links makes the moves in the order by `precedes`. The moves can be ordered exactly if
some order keeps to all constraints; then the answer is such an order, and otherwise moves none of
which can be the first. -/
theorem sortMoves_ok_iff_respects (moves : List Move) :
    sortMoves moves = orderMoves moves ∧
    ((∃ order, sortMoves moves = .ok order) ↔ ∃ order, Respects moves order) ∧
    (∀ order, sortMoves moves = .ok order → Respects moves order) ∧
    ∀ stuck, sortMoves moves = .error stuck →
      stuck ≠ [] ∧ stuck.Nodup ∧ ∀ j ∈ stuck, ∃ i ∈ stuck, j ∈ linksFrom moves i := by
  have heq := sortMoves_eq_orderMoves moves
  refine ⟨heq, ⟨fun ⟨order, h⟩ => ⟨order, respects_of_orderMoves (heq ▸ h)⟩, fun ⟨order, h⟩ => ?_⟩,
    fun order h => respects_of_orderMoves (heq ▸ h), fun stuck h => stuck_of_orderMoves (heq ▸ h)⟩
  cases hsort : sortMoves moves with
  | ok order' => exact ⟨order', rfl⟩
  | error stuck =>
    obtain ⟨hne, -, hheld⟩ := stuck_of_orderMoves (heq ▸ hsort)
    exact absurd (h.not_stuck hheld) hne

/-- A move into a dimension waits for the one that leaves it, and two that wait for each other
cannot be made. -/
example : sortMoves [⟨[], 0, 1⟩, ⟨[], 1, 2⟩] = .ok [1, 0] ∧
    sortMoves [⟨[], 0, 1⟩, ⟨[], 1, 0⟩, ⟨[], 2, 3⟩] = .error [0, 1] := by decide

end constraints

end Resharding
end MeshSharding
