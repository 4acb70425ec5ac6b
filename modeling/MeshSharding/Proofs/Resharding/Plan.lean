import Mathlib.Data.List.Dedup
import Mathlib.Data.List.Nodup
import Mathlib.Data.List.TakeWhile
import MeshSharding.Resharding
import MeshSharding.Proofs.Resharding.MoveOrder

/-! Plans of resharding. The search for a plan ends, and its plan uses every atom of the
source and every atom of the target once. -/
namespace MeshSharding

/-- The atoms of a move, each with the dimension it comes from. -/
def Move.pairs (move : Move) : List (AxisRef × Nat) := move.axes.map fun a => (a, move.source)

namespace Resharding

section lists

variable {α β : Type}

theorem mem_flatten_mapIdx {l : List α} {f : Nat → α → List β} {b : β} :
    b ∈ (l.mapIdx f).flatten ↔ ∃ i a, l[i]? = some a ∧ b ∈ f i a := by
  simp only [List.mem_flatten, List.mem_mapIdx]
  constructor
  · rintro ⟨_, ⟨i, hi, rfl⟩, hb⟩
    exact ⟨i, l[i], List.getElem?_eq_getElem hi, hb⟩
  · rintro ⟨i, a, ha, hb⟩
    obtain ⟨hi, rfl⟩ := List.getElem?_eq_some_iff.1 ha
    exact ⟨_, ⟨i, hi, rfl⟩, hb⟩

theorem flatten_mapIdx_sublist {l : List α} {f : Nat → α → List β} {g : α → List β}
    (h : ∀ i a, l[i]? = some a → (f i a).Sublist (g a)) :
    ((l.mapIdx f).flatten).Sublist (l.flatMap g) := by
  induction l generalizing f with
  | nil => simp
  | cons a rest ih =>
    rw [List.mapIdx_cons, List.flatten_cons, List.flatMap_cons]
    exact (h 0 a rfl).append (ih fun i b hb => h (i + 1) b hb)

/-- A filter that picks out one of the lists. -/
theorem filter_flatten_mapIdx {l : List α} {f : Nat → α → List β} {p : β → Bool} {i : Nat}
    {a : α} (ha : l[i]? = some a)
    (h : ∀ j b x, l[j]? = some b → x ∈ f j b → (p x = true ↔ j = i)) :
    ((l.mapIdx f).flatten).filter p = f i a := by
  induction l generalizing f i with
  | nil => simp at ha
  | cons b rest ih =>
    rw [List.mapIdx_cons, List.flatten_cons, List.filter_append]
    cases i with
    | zero =>
      cases ha
      have hhead : (f 0 a).filter p = f 0 a :=
        List.filter_eq_self.2 fun x hx => (h 0 a x rfl hx).2 rfl
      have htail : ((rest.mapIdx fun i => f (i + 1)).flatten).filter p = [] := by
        refine List.filter_eq_nil_iff.2 fun x hx => ?_
        obtain ⟨j, c, hc, hxc⟩ := mem_flatten_mapIdx.1 hx
        rw [h (j + 1) c x hc hxc]
        omega
      rw [hhead, htail, List.append_nil]
    | succ i =>
      have hhead : (f 0 b).filter p = [] := by
        refine List.filter_eq_nil_iff.2 fun x hx => ?_
        rw [h 0 b x rfl hx]
        omega
      have htail := ih (f := fun i => f (i + 1)) (i := i) ha fun j c x hc hx => by
        rw [h (j + 1) c x hc hx]
        omega
      rw [hhead, htail, List.nil_append]

/-- Of lists without a common element, one alone has a given element. -/
theorem index_unique {l : List α} {g : α → List β} (h : (l.flatMap g).Nodup) {i j : Nat}
    {a a' : α} {b : β} (hi : l[i]? = some a) (hj : l[j]? = some a') (ha : b ∈ g a)
    (ha' : b ∈ g a') : i = j := by
  obtain ⟨hi', rfl⟩ := List.getElem?_eq_some_iff.1 hi
  obtain ⟨hj', rfl⟩ := List.getElem?_eq_some_iff.1 hj
  have hdis := List.pairwise_iff_getElem.1 (List.nodup_flatMap.1 h).2
  rcases Nat.lt_trichotomy i j with hlt | heq | hlt
  · exact absurd ha' (hdis i j hi' hj' hlt ha)
  · exact heq
  · exact absurd ha (hdis j i hj' hi' hlt ha')

end lists

namespace DimTask

variable (opaqueAxes : List String)

theorem settled_append_source (as bs : List AxisRef) :
    (ofAtoms opaqueAxes as bs).settled ++ (ofAtoms opaqueAxes as bs).source = as := by
  fun_induction ofAtoms opaqueAxes as bs with
  | case1 a as b bs _ t ih => exact congrArg (a :: ·) ih
  | case2 => rfl
  | case3 => rfl

theorem settled_append_target (as bs : List AxisRef) :
    (ofAtoms opaqueAxes as bs).settled ++ (ofAtoms opaqueAxes as bs).target = bs := by
  fun_induction ofAtoms opaqueAxes as bs with
  | case1 a as b bs h t ih => exact h.1 ▸ congrArg (a :: ·) ih
  | case2 => rfl
  | case3 => rfl

/-- All clear atoms with which both lists begin are settled. -/
theorem isPrefix_settled {l as bs : List AxisRef} (hl : ∀ a ∈ l, a.name ∉ opaqueAxes)
    (has : l <+: as) (hbs : l <+: bs) : l <+: (ofAtoms opaqueAxes as bs).settled := by
  induction l generalizing as bs with
  | nil => exact List.nil_prefix
  | cons a l ih =>
    obtain ⟨as', rfl, has'⟩ := List.cons_prefix_iff.1 has
    obtain ⟨bs', rfl, hbs'⟩ := List.cons_prefix_iff.1 hbs
    rw [List.forall_mem_cons] at hl
    rw [ofAtoms, if_pos ⟨rfl, hl.1⟩]
    exact List.cons_prefix_cons.2 ⟨rfl, ih hl.2 has' hbs'⟩

end DimTask

section groups

theorem groupMoves_flatMap_pairs (target : Nat) (l : List (AxisRef × Nat)) :
    (groupMoves target l).flatMap Move.pairs = l := by
  induction l with
  | nil => rfl
  | cons x rest ih =>
    obtain ⟨a, source⟩ := x
    unfold groupMoves
    split
    · rename_i h
      simp [h] at ih
      simp [Move.pairs, ih]
    · rename_i move moves h
      rw [h] at ih
      split
      · rename_i hs
        simp only [List.flatMap_cons, Move.pairs, List.map_cons, hs] at ih ⊢
        simp [ih]
      · simp only [List.flatMap_cons] at ih ⊢
        simp [Move.pairs, ← ih]

theorem mem_groupMoves {target : Nat} {l : List (AxisRef × Nat)} {move : Move}
    (h : move ∈ groupMoves target l) : move.target = target ∧ move.axes ≠ [] := by
  induction l generalizing move with
  | nil => simp [groupMoves] at h
  | cons x rest ih =>
    obtain ⟨a, source⟩ := x
    unfold groupMoves at h
    split at h
    · simp only [List.mem_singleton] at h
      subst h
      simp
    · rename_i first moves hg
      rw [hg] at ih
      split at h
      · rcases List.mem_cons.1 h with rfl | h
        · exact ⟨(ih (List.mem_cons_self ..)).1, by simp⟩
        · exact ih (by simp [h])
      · rcases List.mem_cons.1 h with rfl | h
        · exact ⟨rfl, by simp⟩
        · exact ih h

/-- The atoms that moves take out of a dimension. -/
theorem flatMap_axes_filter_source (moves : List Move) (dim : Nat) :
    (moves.filter fun move => move.source = dim).flatMap (·.axes)
      = ((moves.flatMap Move.pairs).filter fun x => x.2 = dim).map (·.1) := by
  induction moves with
  | nil => rfl
  | cons move rest ih =>
    have hpairs : (move.pairs.filter fun x => x.2 = dim).map (·.1)
        = if move.source = dim then move.axes else [] := by
      by_cases h : move.source = dim <;>
        simp [Move.pairs, List.filter_map, Function.comp_def, h]
    rw [List.flatMap_cons, List.filter_append, List.map_append, ← ih, hpairs]
    by_cases h : move.source = dim <;> simp [h]

end groups

section arrivals

variable {t : Task} {barred : List AxisRef} {dim : Nat}

theorem splitIncoming_append (l : List AxisRef) :
    (splitIncoming t barred dim l).1.map (·.1) ++ (splitIncoming t barred dim l).2 = l := by
  induction l with
  | nil => rfl
  | cons a rest ih =>
    unfold splitIncoming
    split
    · split
      · simpa using ih
      · rfl
    · rfl

theorem mem_splitIncoming {l : List AxisRef} {x : AxisRef × Nat}
    (h : x ∈ (splitIncoming t barred dim l).1) :
    t.origin? x.1 = some x.2 ∧ x.2 ≠ dim ∧ x.1 ∉ barred := by
  induction l with
  | nil => simp [splitIncoming] at h
  | cons a rest ih =>
    unfold splitIncoming at h
    split at h
    · rename_i source ho
      split at h
      · rename_i hc
        rcases List.mem_cons.1 h with rfl | h
        · exact ⟨ho, hc⟩
        · exact ih h
      · simp at h
    · simp at h

/-- The atoms that move into a dimension. -/
def incoming (t : Task) (barred : List AxisRef) (dim : Nat) (d : DimTask) : List AxisRef :=
  (arrivals t barred dim d).1.map (·.1)

/-- The target is what stays, what moves in and what is sliced. -/
theorem staying_append_incoming (t : Task) (barred : List AxisRef) (dim : Nat) (d : DimTask) :
    staying t dim d ++ (incoming t barred dim d ++ (arrivals t barred dim d).2) = d.target := by
  rw [incoming, arrivals, splitIncoming_append]
  conv_rhs => rw [← List.take_append_drop (staying t dim d).length d.target]
  congr 1
  exact List.prefix_iff_eq_take.1 (List.takeWhile_prefix _)

theorem origin_of_mem_staying {d : DimTask} {a : AxisRef} (h : a ∈ staying t dim d) :
    t.origin? a = some dim := by
  simpa using List.mem_takeWhile_imp h

theorem movable_of_origin {a : AxisRef} (h : t.origin? a = some dim) :
    (a, dim) ∈ t.movable := by
  obtain ⟨x, hx, rfl⟩ := Option.map_eq_some_iff.1 h
  have ha : x.1 = a := by simpa using List.find?_some hx
  rw [← ha]
  exact List.mem_reverse.1 (List.mem_of_find?_eq_some hx)

theorem mem_arrivingAtoms {barred : List AxisRef} {a : AxisRef} :
    a ∈ arrivingAtoms t barred ↔
      ∃ dim d, t.dims[dim]? = some d ∧ a ∈ incoming t barred dim d := mem_flatten_mapIdx

theorem mem_stayingAtoms {a : AxisRef} :
    a ∈ stayingAtoms t ↔ ∃ dim d, t.dims[dim]? = some d ∧ a ∈ staying t dim d :=
  mem_flatten_mapIdx

/-- The moves carry what arrives, each atom from where it was. -/
theorem movesOf_flatMap_pairs (t : Task) (barred : List AxisRef) :
    (movesOf t barred).flatMap Move.pairs
      = (t.dims.mapIdx fun dim d => (arrivals t barred dim d).1).flatten := by
  rw [movesOf, List.flatMap_def, List.map_flatten, List.flatten_flatten, List.map_map]
  congr 1
  refine List.ext_getElem (by simp) fun i _ _ => ?_
  simp [← List.flatMap_def, groupMoves_flatMap_pairs]

theorem mem_movesOf {move : Move} (h : move ∈ movesOf t barred) :
    ∃ d, t.dims[move.target]? = some d ∧ move.axes ≠ [] ∧
      ∀ a ∈ move.axes, (a, move.source) ∈ (arrivals t barred move.target d).1 := by
  obtain ⟨dim, d, hd, hm⟩ := mem_flatten_mapIdx.1 h
  obtain ⟨rfl, hne⟩ := mem_groupMoves hm
  refine ⟨d, hd, hne, fun a ha => ?_⟩
  have : (a, move.source) ∈ (groupMoves move.target
      (arrivals t barred move.target d).1).flatMap Move.pairs :=
    List.mem_flatMap.2 ⟨move, hm, List.mem_map.2 ⟨a, ha, rfl⟩⟩
  rwa [groupMoves_flatMap_pairs] at this

/-- What a move carries can move and is not barred. -/
theorem movable_of_mem_axes {move : Move} (h : move ∈ movesOf t barred) {a : AxisRef}
    (ha : a ∈ move.axes) :
    (a, move.source) ∈ t.movable ∧ a ∉ barred ∧ move.source ≠ move.target := by
  obtain ⟨d, _, _, hall⟩ := mem_movesOf h
  obtain ⟨ho, hne, hb⟩ := mem_splitIncoming (hall a ha)
  exact ⟨movable_of_origin ho, hb, hne⟩

end arrivals

section search

variable {t : Task} {barred : List AxisRef}

/-- The atoms that can move and are not barred. -/
def openAtoms (t : Task) (barred : List AxisRef) : List AxisRef :=
  (t.movable.map (·.1)).dedup.filter fun a => a ∉ barred

theorem length_openAtoms_lt {new : List AxisRef} {a : AxisRef} {dim : Nat}
    (h : (a, dim) ∈ t.movable) (hb : a ∉ barred) (hn : a ∈ new) :
    (openAtoms t (barred ++ new)).length < (openAtoms t barred).length := by
  have hsplit : openAtoms t (barred ++ new) = (openAtoms t barred).filter fun a => a ∉ new := by
    rw [openAtoms, openAtoms, List.filter_filter]
    exact List.filter_congr fun x _ => by simp [Bool.and_comm]
  have hmem : a ∈ (t.movable.map (·.1)).dedup :=
    List.mem_dedup.2 (List.mem_map.2 ⟨(a, dim), h, rfl⟩)
  rw [hsplit]
  exact List.length_filter_lt_length_iff_exists.2
    ⟨a, List.mem_filter.2 ⟨hmem, by simpa using hb⟩, by simpa using hn⟩

/-- A search that has a plan has found no obstructed move in it and an order of all moves. -/
structure Found (t : Task) (p : Plan) (barred : List AxisRef) (order : List Nat) : Prop where
  dims : p.dims = classify t barred
  orders : orderMoves (movesOf t barred) = .ok order
  moves : p.moves = pick (movesOf t barred) order
  unobstructed : obstructed (classify t barred) = []

theorem exists_of_obstructed (h : obstructed (classify t barred) ≠ []) :
    ∃ a dim, a ∈ obstructed (classify t barred) ∧ (a, dim) ∈ t.movable ∧ a ∉ barred := by
  obtain ⟨a, ha⟩ := List.exists_mem_of_ne_nil _ h
  obtain ⟨plan, hplan, hmem⟩ := List.mem_flatMap.1 ha
  obtain ⟨dim, hdim, rfl⟩ := List.mem_mapIdx.1 hplan
  split at hmem
  · simp at hmem
  · obtain ⟨x, hx, rfl⟩ := List.mem_map.1 hmem
    obtain ⟨ho, _, hb⟩ := mem_splitIncoming hx
    exact ⟨x.1, x.2, ha, movable_of_origin ho, hb⟩

theorem exists_of_stuck {stuck : List Nat}
    (h : orderMoves (movesOf t barred) = .error stuck) :
    ∃ a dim, a ∈ (pick (movesOf t barred) stuck).flatMap (·.axes) ∧
      (a, dim) ∈ t.movable ∧ a ∉ barred := by
  simp only [orderMoves] at h
  split at h
  · cases h
  · rename_i hlen
    cases h
    have hmade := made_extendOrder (movesOf t barred).length (made_nil (movesOf t barred))
    obtain ⟨i, hi, hnot⟩ := hmade.exists_not_mem hlen
    have hmem : (movesOf t barred)[i] ∈ movesOf t barred := List.getElem_mem hi
    obtain ⟨d, _, hne, _⟩ := mem_movesOf hmem
    obtain ⟨a, ha⟩ := List.exists_mem_of_ne_nil _ hne
    obtain ⟨hm, hb, _⟩ := movable_of_mem_axes hmem ha
    refine ⟨a, _, List.mem_flatMap.2 ⟨_, mem_pick.2 ⟨i, ?_, List.getElem?_eq_getElem hi⟩, ha⟩,
      hm, hb⟩
    exact List.mem_filter.2 ⟨List.mem_range.2 hi, by simpa using hnot⟩

/-- Each round but the last bars an open atom, so the rounds suffice. -/
theorem search_eq_some (rounds : Nat) (barred : List AxisRef)
    (h : (openAtoms t barred).length < rounds) :
    ∃ p barred' order, search t rounds barred = some p ∧ Found t p barred' order := by
  induction rounds generalizing barred with
  | zero => omega
  | succ rounds ih =>
    unfold search
    dsimp only
    split
    · rename_i hobs
      obtain ⟨a, dim, ha, hm, hb⟩ := exists_of_obstructed hobs
      have := length_openAtoms_lt hm hb ha
      exact ih _ (by omega)
    · rename_i hobs
      split
      · rename_i order ho
        exact ⟨_, barred, order, rfl, rfl, ho, rfl, by simpa using hobs⟩
      · rename_i stuck ho
        obtain ⟨a, dim, ha, hm, hb⟩ := exists_of_stuck ho
        have := length_openAtoms_lt hm hb ha
        exact ih _ (by omega)

/-- A search that has a plan does not need more rounds. -/
theorem search_add {rounds : Nat} {p : Plan} (h : search t rounds barred = some p) (k : Nat) :
    search t (rounds + k) barred = some p := by
  induction rounds generalizing barred with
  | zero => cases h
  | succ rounds ih =>
    rw [Nat.succ_add]
    unfold search at h ⊢
    dsimp only at h ⊢
    split
    · rename_i hobs
      rw [if_pos hobs] at h
      exact ih h
    · rename_i hobs
      rw [if_neg hobs] at h
      split <;> rename_i ho <;> rw [ho] at h
      · exact h
      · exact ih h

/-- The plan is found with one round more than there are atoms that can move. -/
theorem search_openAtoms (t : Task) : ∃ barred order,
    search t ((t.movable.map (·.1)).dedup.length + 1) [] = some (plan t) ∧
      Found t (plan t) barred order := by
  have hopen : (openAtoms t []).length ≤ (t.movable.map (·.1)).dedup.length :=
    List.length_filter_le ..
  obtain ⟨p, barred, order, hp, hfound⟩ :=
    search_eq_some (t := t) _ [] (Nat.lt_add_one_of_le hopen)
  have hle := (List.dedup_sublist (t.movable.map (·.1))).length_le
  rw [List.length_map] at hle
  obtain ⟨k, hk⟩ := Nat.exists_eq_add_of_le (Nat.add_le_add_right hle 1)
  have hplan : plan t = p := by
    rw [plan, hk, search_add hp k]
    rfl
  exact ⟨barred, order, hplan ▸ hp, hplan ▸ hfound⟩

theorem plan_found (t : Task) : ∃ barred order, Found t (plan t) barred order := by
  obtain ⟨barred, order, -, hfound⟩ := search_openAtoms t
  exact ⟨barred, order, hfound⟩

end search

end Resharding
end MeshSharding
