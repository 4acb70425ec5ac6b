import Mathlib.Data.List.Nodup
import MeshSharding.Proofs.AxisList.Core

/-! The places of an axis list. Written out as the places of axes that its references run
through, one behind the other, a list tells its core, so what two lists have in common at
their minor end can be taken off both. -/
namespace MeshSharding
namespace AxisRef

/-- The places of the axis in the window, each with the name of the axis. -/
def places (m : Mesh) (a : AxisRef) : List (String × Nat) :=
  (List.range' a.preSize (a.nextPreSize m - a.preSize)).map fun c => (a.name, c)

variable {m : Mesh} {a b : AxisRef}

theorem places_eq_nil (h : a.size m = 1) : a.places m = [] := by
  simp [places, nextPreSize, h]

theorem places_eq_cons (h : a.preSize < a.nextPreSize m) :
    ∃ l, a.places m = (a.name, a.preSize) :: l := by
  obtain ⟨n, hn⟩ : ∃ n, a.nextPreSize m - a.preSize = n + 1 :=
    ⟨_, (Nat.sub_add_cancel (by omega)).symm⟩
  exact ⟨_, by rw [places, hn, List.range'_succ, List.map_cons]⟩

/-- The window ends no earlier than it begins, which one of size 0 may do. -/
def Upright (m : Mesh) (a : AxisRef) : Prop := a.preSize ≤ a.nextPreSize m

theorem Valid.upright (h : a.Valid m) : a.Upright m := h.preSize_le_nextPreSize

theorem Upright.merge (ha : a.Upright m) (hb : b.Upright m) (h : a.canMerge b m = true) :
    (a.merge b m).Upright m := by
  have hnext := merge_nextPreSize h
  rw [canMerge_iff] at h
  unfold Upright at ha hb ⊢
  rw [hnext, merge_preSize]
  omega

/-- A window that goes on in another one has the places of both. -/
theorem places_merge (ha : a.Upright m) (hb : b.Upright m) (h : a.canMerge b m = true) :
    (a.merge b m).places m = a.places m ++ b.places m := by
  have hnext := merge_nextPreSize h
  rw [canMerge_iff] at h
  unfold Upright at ha hb
  have hsum : b.nextPreSize m - a.preSize
      = a.nextPreSize m - a.preSize + (b.nextPreSize m - b.preSize) := by omega
  have hstart : b.preSize = a.preSize + (a.nextPreSize m - a.preSize) := by omega
  rw [places, hnext, merge_name, merge_preSize, places, places, ← h.1, ← List.map_append, hsum,
    ← List.range'_append_1, ← hstart]

/-- A window runs through each place that it covers once. -/
theorem count_places (a : AxisRef) (name : String) (c : Nat) :
    (a.places m).count (name, c) = if a.covers m name c then 1 else 0 := by
  have hnodup : (a.places m).Nodup :=
    List.Nodup.map (fun _ _ h => (Prod.mk.inj h).2) List.nodup_range'
  have hmem : (name, c) ∈ a.places m ↔ a.covers m name c = true := by
    simp only [places, covers, List.mem_map, List.mem_range'_1, Prod.mk.injEq, decide_eq_true_eq]
    constructor
    · rintro ⟨_, hc, rfl, rfl⟩
      exact ⟨rfl, by omega⟩
    · rintro ⟨rfl, hc⟩
      exact ⟨c, by omega, rfl, rfl⟩
  simp [hnodup.count, hmem]

/-- Windows of one axis with the same places are one window. -/
theorem Valid.eq_of_bounds (ha : a.Valid m) (hb : b.Valid m) (hn : a.name = b.name)
    (hp : a.preSize = b.preSize) (hq : a.nextPreSize m = b.nextPreSize m) : a = b := by
  have hsize : a.size m = b.size m := by
    unfold nextPreSize at hq
    rw [hp] at hq
    exact Nat.eq_of_mul_eq_mul_left hb.preSize_pos hq
  rw [← ha.eq_ofWindow, ← hb.eq_ofWindow, hn, hp, hsize, fullSize_congr m hn]

/-- A longer window with the same start has the places of the shorter one and more. -/
theorem places_eq_append (hn : a.name = b.name) (hp : a.preSize = b.preSize)
    (hle : a.preSize ≤ a.nextPreSize m) (hlt : a.nextPreSize m < b.nextPreSize m) :
    ∃ k, b.places m = a.places m ++ (a.name, a.nextPreSize m) :: k := by
  obtain ⟨n, hsum⟩ : ∃ n, b.nextPreSize m - b.preSize
      = a.nextPreSize m - a.preSize + (n + 1) :=
    ⟨b.nextPreSize m - a.nextPreSize m - 1, by omega⟩
  have hstart : a.preSize + (a.nextPreSize m - a.preSize) = a.nextPreSize m := by omega
  exact ⟨_, by rw [places, ← hn, hsum, ← hp, ← List.range'_append_1, hstart, List.range'_succ,
    List.map_append, List.map_cons, places]⟩

end AxisRef

namespace AxisList

variable {m : Mesh} {a b : AxisRef} {l l' r x : List AxisRef}

def places (m : Mesh) (l : List AxisRef) : List (String × Nat) := l.flatMap (AxisRef.places m)

@[simp] theorem places_append (l r : List AxisRef) :
    places m (l ++ r) = places m l ++ places m r := List.flatMap_append

theorem places_cons (a : AxisRef) (l : List AxisRef) :
    places m (a :: l) = a.places m ++ places m l := List.flatMap_cons

theorem places_trim (h : AllValid m l) : places m (trim m l) = places m l := by
  induction l with
  | nil => rfl
  | cons a rest ih =>
    rw [allValid_cons] at h
    have hpos := h.1.size_pos
    have hrest := ih h.2
    unfold trim at hrest ⊢
    by_cases hs : 1 < a.size m
    · rw [List.filter_cons_of_pos (by simpa using hs), places_cons, places_cons, hrest]
    · rw [List.filter_cons_of_neg (by simpa using hs), places_cons,
        AxisRef.places_eq_nil (by omega), List.nil_append, hrest]

/-- A list covers a place as often as it runs through it. -/
theorem coverage_eq_count (l : List AxisRef) (name : String) (c : Nat) :
    coverage m name c l = (places m l).count (name, c) := by
  induction l with
  | nil => rfl
  | cons a rest ih =>
    rw [coverage_cons, ih, places_cons, List.count_append, AxisRef.count_places]
    simp [coverage, List.countP_singleton]

/-- All windows end no earlier than they begin. -/
def AllUpright (m : Mesh) (l : List AxisRef) : Prop := ∀ a ∈ l, a.Upright m

theorem AllValid.upright (h : AllValid m l) : AllUpright m l := fun a ha => (h a ha).upright

theorem allUpright_append : AllUpright m (l ++ r) ↔ AllUpright m l ∧ AllUpright m r :=
  List.forall_mem_append

theorem AllUpright.mergeAdjacent (h : AllUpright m l) : AllUpright m (mergeAdjacent m l) :=
  forall_mem_mergeAdjacent h fun _ _ ha hb hm => ha.merge hb hm

theorem places_mergeAdjacent (h : AllUpright m l) :
    places m (mergeAdjacent m l) = places m l := by
  refine apply_mergeAdjacent h (fun _ _ ha hb hm => ha.merge hb hm) ?cons ?merge
  case cons =>
    intro a l r heq
    rw [places_cons, places_cons, heq]
  case merge =>
    intro a b l ha hb hm
    rw [places_cons, AxisRef.places_merge ha hb hm, places_cons, places_cons,
      List.append_assoc]

theorem places_core (h : AllValid m l) : places m (core m l) = places m l := by
  rw [core, places_mergeAdjacent (h.subset (trim_subset l)).upright, places_trim h]

/-- In a merged list, the places behind a reference do not go on where it ends. -/
theorem Separated.places_ne (hs : Separated m (a :: l)) (hl : AllValid m l)
    (h1 : ∀ b ∈ l, 1 < b.size m) (k : List (String × Nat)) :
    places m l ≠ (a.name, a.nextPreSize m) :: k := by
  cases l with
  | nil => simp [places]
  | cons b rest =>
    rw [allValid_cons] at hl
    obtain ⟨t, ht⟩ := AxisRef.places_eq_cons (hl.1.preSize_lt_nextPreSize (h1 b (by simp)))
    intro heq
    rw [places_cons, ht, List.cons_append] at heq
    have hhead := congrArg Prod.fst (List.cons.inj heq).1
    have hplace := congrArg Prod.snd (List.cons.inj heq).1
    refine (List.isChain_cons_cons.1 hs).1 ?_
    simp only at hhead hplace
    simp [AxisRef.canMerge, hhead, hplace]

theorem Separated.nextPreSize_le (hs : Separated m (a :: l)) (ha : a.Valid m)
    (hl : AllValid m l) (h1 : ∀ b ∈ l, 1 < b.size m) (hn : a.name = b.name)
    (hp : a.preSize = b.preSize) {k : List (String × Nat)}
    (h : a.places m ++ places m l = b.places m ++ k) : b.nextPreSize m ≤ a.nextPreSize m := by
  by_contra hlt
  obtain ⟨k', hk'⟩ := AxisRef.places_eq_append hn hp ha.preSize_le_nextPreSize (Nat.not_le.1 hlt)
  rw [hk', List.append_assoc, List.append_cancel_left_eq] at h
  exact hs.places_ne hl h1 _ h

/-- A merged list of references of size above 1 is known by its places. -/
theorem eq_of_places_eq (hl : AllValid m l) (hl' : AllValid m l') (hs : Separated m l)
    (hs' : Separated m l') (h1 : ∀ a ∈ l, 1 < a.size m) (h1' : ∀ a ∈ l', 1 < a.size m)
    (h : places m l = places m l') : l = l' := by
  induction l generalizing l' with
  | nil =>
    cases l' with
    | nil => rfl
    | cons b rest' =>
      rw [allValid_cons] at hl'
      obtain ⟨k, hk⟩ := AxisRef.places_eq_cons (hl'.1.preSize_lt_nextPreSize (h1' b (by simp)))
      rw [places_cons, hk] at h
      cases h
  | cons a rest ih =>
    rw [allValid_cons] at hl
    rw [List.forall_mem_cons] at h1
    obtain ⟨k, hk⟩ := AxisRef.places_eq_cons (hl.1.preSize_lt_nextPreSize h1.1)
    cases l' with
    | nil =>
      rw [places_cons, hk] at h
      cases h
    | cons b rest' =>
      rw [allValid_cons] at hl'
      rw [List.forall_mem_cons] at h1'
      obtain ⟨k', hk'⟩ := AxisRef.places_eq_cons (hl'.1.preSize_lt_nextPreSize h1'.1)
      rw [places_cons, places_cons] at h
      have hfirst := h
      rw [hk, hk', List.cons_append, List.cons_append] at hfirst
      obtain ⟨hn, hp⟩ := Prod.mk.inj (List.cons.inj hfirst).1
      -- each of the two windows ends no later than the other one
      have hle := hs.nextPreSize_le hl.1 hl.2 h1.2 hn hp h
      have hge := hs'.nextPreSize_le hl'.1 hl'.2 h1'.2 hn.symm hp.symm h.symm
      obtain rfl := hl.1.eq_of_bounds hl'.1 hn hp (Nat.le_antisymm hge hle)
      rw [List.append_cancel_left_eq] at h
      rw [ih hl.2 hl'.2 hs.tail hs'.tail h1.2 h1'.2 h]

/-- Lists make the same shards exactly if they run through the same places. -/
theorem core_eq_iff (hl : AllValid m l) (hr : AllValid m r) :
    core m l = core m r ↔ places m l = places m r := by
  rw [← places_core hl, ← places_core hr]
  refine ⟨congrArg _, fun h => eq_of_places_eq hl.core hr.core (separated_core l)
    (separated_core r) one_lt_size_of_mem_core one_lt_size_of_mem_core h⟩

/-- What two lists have in common at their minor end can be taken off both. -/
theorem core_append_right_cancel (hl : AllValid m (l ++ x)) (hr : AllValid m (r ++ x))
    (h : core m (l ++ x) = core m (r ++ x)) : core m l = core m r := by
  rw [core_eq_iff hl hr, places_append, places_append, List.append_cancel_right_eq] at h
  exact (core_eq_iff (allValid_append.1 hl).1 (allValid_append.1 hr).1).2 h

end AxisList
end MeshSharding
