import Mathlib.Data.List.Chain
import MeshSharding.Proofs.Axis

/-! Merging of adjacent windows. Merging is a congruence for appending, it is idempotent,
and it keeps the number of shards, the part that each device holds and what is covered. -/
namespace MeshSharding
namespace AxisRef

variable {m : Mesh} {a b : AxisRef}

@[simp] theorem canMerge_merge_left (h : a.canMerge b m = true) (x : AxisRef) :
    (a.merge b m).canMerge x m = b.canMerge x m := by
  have hn : a.name = b.name := (canMerge_iff.1 h).1
  simp [canMerge, merge_nextPreSize h, hn]

@[simp] theorem canMerge_merge_right (x : AxisRef) :
    x.canMerge (a.merge b m) m = x.canMerge a m := by simp [canMerge]

theorem merge_assoc (x : AxisRef) : (x.merge a m).merge b m = x.merge (a.merge b m) m := by
  simp only [AxisRef.merge, ofWindow_name, ofWindow_preSize, ofWindow_size, Nat.mul_assoc]
  congr 1
  exact merge_fullSize x a m

end AxisRef

namespace AxisList

variable {m : Mesh}

theorem name_eq_of_canMerge {a b : AxisRef} (h : a.canMerge b m = true) : a.name = b.name :=
  (AxisRef.canMerge_iff.1 h).1

/-- Of two windows that meet, both have size above 1 or none has. -/
theorem one_lt_size_iff_of_canMerge {a b : AxisRef} (ha : a.Valid m) (hb : b.Valid m)
    (hm : a.canMerge b m = true) : 1 < a.size m ↔ 1 < b.size m := by
  have hpa := ha.size_pos
  have hpb := hb.size_pos
  have hone : a.size m = 1 ↔ b.size m = 1 := by
    rw [ha.size_eq_one_iff, hb.size_eq_one_iff, AxisRef.fullSize_congr m (name_eq_of_canMerge hm)]
  omega

/-- Puts a reference in front of a merged list. -/
def push (m : Mesh) (a : AxisRef) : List AxisRef → List AxisRef
  | [] => [a]
  | b :: rest => if a.canMerge b m then a.merge b m :: rest else a :: b :: rest

theorem push_cons_of_canMerge {a b : AxisRef} (h : a.canMerge b m = true)
    (l : List AxisRef) : push m a (b :: l) = a.merge b m :: l := by simp [push, h]

theorem push_cons_of_not {a b : AxisRef} (h : ¬ a.canMerge b m = true) (l : List AxisRef) :
    push m a (b :: l) = a :: b :: l := by simp [push, h]

theorem push_push {a b : AxisRef} (h : a.canMerge b m = true) (l : List AxisRef) :
    push m a (push m b l) = push m (a.merge b m) l := by
  cases l with
  | nil => simp [push, h]
  | cons x rest =>
    by_cases hx : b.canMerge x m = true
    · simp [push, hx, h, AxisRef.merge_assoc]
    · simp [push, hx, h]

theorem push_push_of_not {a b : AxisRef} (h : ¬ a.canMerge b m = true) (l : List AxisRef) :
    push m a (push m b l) = a :: push m b l := by
  cases l with
  | nil => simp [push, h]
  | cons x rest => by_cases hx : b.canMerge x m = true <;> simp [push, hx, h]

theorem mergeFrom_eq_push (a : AxisRef) (l : List AxisRef) :
    mergeFrom m a l = push m a (mergeAdjacent m l) := by
  induction l generalizing a with
  | nil => rfl
  | cons b rest ih =>
    rw [mergeFrom, mergeAdjacent]
    split
    · rename_i h
      rw [ih, ih b, push_push h]
    · rename_i h
      rw [ih b, push_push_of_not h]

@[simp] theorem mergeAdjacent_cons (a : AxisRef) (l : List AxisRef) :
    mergeAdjacent m (a :: l) = push m a (mergeAdjacent m l) := mergeFrom_eq_push a l

@[simp] theorem mergeAdjacent_eq_nil_iff {l : List AxisRef} :
    mergeAdjacent m l = [] ↔ l = [] := by
  cases l with
  | nil => simp
  | cons a rest =>
    rw [mergeAdjacent_cons]
    cases mergeAdjacent m rest with
    | nil => simp [push]
    | cons b rest => by_cases h : a.canMerge b m = true <;> simp [push, h]

/-- The first merged reference begins where the first reference does. -/
theorem head_of_mergeAdjacent_cons {a b : AxisRef} {l rest : List AxisRef}
    (h : mergeAdjacent m (a :: l) = b :: rest) : b.name = a.name ∧ b.preSize = a.preSize := by
  rw [mergeAdjacent_cons] at h
  revert h
  cases mergeAdjacent m l with
  | nil => rintro ⟨⟩; exact ⟨rfl, rfl⟩
  | cons x _ =>
    by_cases hx : a.canMerge x m = true
    · rw [push_cons_of_canMerge hx]; rintro ⟨⟩; simp
    · rw [push_cons_of_not hx]; rintro ⟨⟩; simp

theorem mergeAdjacent_append (l r : List AxisRef) :
    mergeAdjacent m (l ++ r) = l.foldr (push m) (mergeAdjacent m r) := by
  induction l with
  | nil => rfl
  | cons a rest ih => simp [ih]

theorem foldr_push_push (a : AxisRef) (l x : List AxisRef) :
    (push m a l).foldr (push m) x = push m a (l.foldr (push m) x) := by
  cases l with
  | nil => rfl
  | cons b rest =>
    by_cases h : a.canMerge b m = true
    · rw [push_cons_of_canMerge h, List.foldr_cons, List.foldr_cons, push_push h]
    · rw [push_cons_of_not h, List.foldr_cons]

theorem mergeAdjacent_append_left (l r : List AxisRef) :
    mergeAdjacent m (mergeAdjacent m l ++ r) = mergeAdjacent m (l ++ r) := by
  rw [mergeAdjacent_append, mergeAdjacent_append]
  induction l with
  | nil => rfl
  | cons a rest ih => rw [mergeAdjacent_cons, foldr_push_push, ih, List.foldr_cons]

@[simp] theorem mergeAdjacent_mergeAdjacent (l : List AxisRef) :
    mergeAdjacent m (mergeAdjacent m l) = mergeAdjacent m l := by
  simpa using mergeAdjacent_append_left (m := m) l []

/-- Merging is a congruence for appending. -/
theorem mergeAdjacent_append_congr {l l' r r' : List AxisRef}
    (hl : mergeAdjacent m l = mergeAdjacent m l')
    (hr : mergeAdjacent m r = mergeAdjacent m r') :
    mergeAdjacent m (l ++ r) = mergeAdjacent m (l' ++ r') := by
  rw [← mergeAdjacent_append_left l, ← mergeAdjacent_append_left l', hl,
    mergeAdjacent_append, mergeAdjacent_append, hr]

theorem mergeAdjacent_flatMap_congr {α : Type} {l : List α} {f g : α → List AxisRef}
    (h : ∀ x ∈ l, mergeAdjacent m (f x) = mergeAdjacent m (g x)) :
    mergeAdjacent m (l.flatMap f) = mergeAdjacent m (l.flatMap g) := by
  induction l with
  | nil => rfl
  | cons x rest ih =>
    rw [List.flatMap_cons, List.flatMap_cons]
    exact mergeAdjacent_append_congr (h x (by simp)) (ih fun y hy => h y (by simp [hy]))

/-- What holds of all references and is kept by merging two of them holds of all merged
references. -/
theorem forall_mem_mergeAdjacent {P : AxisRef → Prop} {l : List AxisRef}
    (h : ∀ a ∈ l, P a)
    (hmerge : ∀ a b, P a → P b → a.canMerge b m = true → P (a.merge b m)) :
    ∀ a ∈ mergeAdjacent m l, P a := by
  induction l with
  | nil => simp
  | cons a rest ih =>
    have ha := h a (by simp)
    have hrest := ih fun x hx => h x (by simp [hx])
    rw [mergeAdjacent_cons]
    revert hrest
    cases mergeAdjacent m rest with
    | nil => simp [push, ha]
    | cons b rest =>
      intro hrest
      have hb := hrest b (by simp)
      by_cases hm : a.canMerge b m = true
      · have := hmerge a b ha hb hm
        rw [push_cons_of_canMerge hm]
        grind
      · rw [push_cons_of_not hm]
        grind

section kept

variable {α : Type} {f : List AxisRef → α} {P : AxisRef → Prop}

theorem apply_push {a : AxisRef} {l : List AxisRef} (ha : P a) (hl : ∀ b ∈ l, P b)
    (hmerge : ∀ a b l, P a → P b → a.canMerge b m = true →
      f (a.merge b m :: l) = f (a :: b :: l)) : f (push m a l) = f (a :: l) := by
  cases l with
  | nil => rfl
  | cons b rest =>
    by_cases hm : a.canMerge b m = true
    · rw [push_cons_of_canMerge hm, hmerge a b rest ha (hl b (by simp)) hm]
    · rw [push_cons_of_not hm]

/-- What merging the first two references of a list keeps is kept by merging all that meet, if
what it is for a list depends on the first reference and on what it is for the rest. -/
theorem apply_mergeAdjacent {l : List AxisRef} (h : ∀ a ∈ l, P a)
    (hP : ∀ a b, P a → P b → a.canMerge b m = true → P (a.merge b m))
    (hcons : ∀ a l r, f l = f r → f (a :: l) = f (a :: r))
    (hmerge : ∀ a b l, P a → P b → a.canMerge b m = true →
      f (a.merge b m :: l) = f (a :: b :: l)) : f (mergeAdjacent m l) = f l := by
  induction l with
  | nil => rfl
  | cons a rest ih =>
    obtain ⟨ha, hrest⟩ := List.forall_mem_cons.1 h
    calc f (mergeAdjacent m (a :: rest))
        = f (push m a (mergeAdjacent m rest)) := by rw [mergeAdjacent_cons]
      _ = f (a :: mergeAdjacent m rest) :=
          apply_push ha (forall_mem_mergeAdjacent hrest hP) hmerge
      _ = f (a :: rest) := hcons a _ _ (ih hrest)

end kept

/-- All references are valid. -/
def AllValid (m : Mesh) (l : List AxisRef) : Prop := ∀ a ∈ l, a.Valid m

theorem allValid_append {l r : List AxisRef} :
    AllValid m (l ++ r) ↔ AllValid m l ∧ AllValid m r := by
  simp only [AllValid, List.mem_append]; grind

theorem allValid_cons {a : AxisRef} {l : List AxisRef} :
    AllValid m (a :: l) ↔ a.Valid m ∧ AllValid m l := by simp [AllValid]

theorem AllValid.subset {l r : List AxisRef} (h : AllValid m r) (hs : l ⊆ r) : AllValid m l :=
  fun a ha => h a (hs ha)

theorem AllValid.mergeAdjacent {l : List AxisRef} (h : AllValid m l) :
    AllValid m (mergeAdjacent m l) :=
  forall_mem_mergeAdjacent h fun _ _ ha hb hm => ha.merge hb hm

/-- No two neighbours can be merged. -/
def Separated (m : Mesh) (l : List AxisRef) : Prop :=
  l.IsChain fun a b => ¬ a.canMerge b m = true

theorem separated_push {a : AxisRef} {l : List AxisRef} (h : Separated m l) :
    Separated m (push m a l) := by
  unfold Separated at h ⊢
  cases l with
  | nil => simp [push]
  | cons b rest =>
    by_cases hm : a.canMerge b m = true
    · rw [push_cons_of_canMerge hm]
      cases rest with
      | nil => simp
      | cons x rest => simpa [List.isChain_cons_cons, hm] using h
    · rw [push_cons_of_not hm]
      exact List.isChain_cons_cons.2 ⟨hm, h⟩

theorem separated_mergeAdjacent (l : List AxisRef) : Separated m (mergeAdjacent m l) := by
  induction l with
  | nil => simp [Separated]
  | cons a rest ih => rw [mergeAdjacent_cons]; exact separated_push ih

section measures

/-- How often a list covers a place of an axis. -/
def coverage (m : Mesh) (name : String) (c : Nat) (l : List AxisRef) : Nat :=
  l.countP (AxisRef.covers m name c)

@[simp] theorem coverage_nil (name : String) (c : Nat) : coverage m name c [] = 0 := rfl

@[simp] theorem coverage_append (name : String) (c : Nat) (l r : List AxisRef) :
    coverage m name c (l ++ r) = coverage m name c l + coverage m name c r :=
  List.countP_append

theorem coverage_cons (name : String) (c : Nat) (a : AxisRef) (l : List AxisRef) :
    coverage m name c (a :: l) = coverage m name c [a] + coverage m name c l :=
  coverage_append name c [a] l

theorem coverage_perm {l r : List AxisRef} (h : l.Perm r) (name : String) (c : Nat) :
    coverage m name c l = coverage m name c r := h.countP_eq _

theorem coverage_sublist {l r : List AxisRef} (h : l.Sublist r) (name : String) (c : Nat) :
    coverage m name c l ≤ coverage m name c r := h.countP_le

theorem coverage_merge {a b : AxisRef} (ha : a.Valid m) (hb : b.Valid m)
    (h : a.canMerge b m = true) (name : String) (c : Nat) :
    coverage m name c [a.merge b m] = coverage m name c [a] + coverage m name c [b] := by
  have hnext := AxisRef.merge_nextPreSize h
  have hla := ha.preSize_le_nextPreSize
  have hlb := hb.preSize_le_nextPreSize
  rw [AxisRef.canMerge_iff] at h
  simp only [coverage, List.countP_singleton, AxisRef.covers, AxisRef.merge_name,
    AxisRef.merge_preSize, hnext, decide_eq_true_eq, h.1]
  by_cases hn : b.name = name
  · simp only [hn, true_and]
    split <;> split <;> split <;> omega
  · simp [hn]

/-- Merging keeps what is covered. -/
theorem coverage_mergeAdjacent {l : List AxisRef} (h : AllValid m l) (name : String)
    (c : Nat) : coverage m name c (mergeAdjacent m l) = coverage m name c l := by
  refine apply_mergeAdjacent h (fun _ _ ha hb hm => ha.merge hb hm) ?cons ?merge
  case cons =>
    intro a l r heq
    rw [coverage_cons, heq, ← coverage_cons]
  case merge =>
    intro a b l ha hb hm
    rw [coverage_cons, coverage_merge ha hb hm, coverage_cons name c a (b :: l),
      coverage_cons name c b l, Nat.add_assoc]

end measures

end AxisList
end MeshSharding
