import Mathlib.Algebra.BigOperators.Group.Finset.Basic
import Mathlib.Algebra.GroupWithZero.Nat
import Mathlib.Order.Interval.Finset.Nat
import Mathlib.Algebra.Order.BigOperators.Group.Finset
import Mathlib.Algebra.Order.BigOperators.Group.List
import MeshSharding.Proofs.AxisList.Prefix

/-! The weight of an axis list: how many places of the axes its references cover. Merging keeps
it, and lists that cover no place twice weigh at most what the mesh has room for. -/
namespace MeshSharding

namespace Mesh

/-- The number of places to be covered. -/
def capacity (m : Mesh) : Nat := (m.axes.map fun axis => axis.size - 1).sum

end Mesh

namespace AxisRef

variable {m : Mesh} {a : AxisRef}

/-- The number of places that a reference covers. -/
def weight (m : Mesh) (a : AxisRef) : Nat := a.nextPreSize m - a.preSize

theorem Valid.weight_pos (hm : m.NoUnitAxes) (h : a.Valid m) : 0 < a.weight m := by
  have := h.preSize_lt_nextPreSize (h.one_lt_size hm)
  unfold weight
  omega

end AxisRef

namespace AxisList

variable {m : Mesh} {l r : List AxisRef}

def weight (m : Mesh) (l : List AxisRef) : Nat := (l.map (AxisRef.weight m)).sum

@[simp] theorem weight_nil : weight m [] = 0 := rfl

@[simp] theorem weight_cons (a : AxisRef) (l : List AxisRef) :
    weight m (a :: l) = a.weight m + weight m l := rfl

@[simp] theorem weight_append (l r : List AxisRef) :
    weight m (l ++ r) = weight m l + weight m r := by simp [weight]

theorem weight_perm (h : l.Perm r) : weight m l = weight m r := (h.map _).sum_eq

theorem weight_merge {a b : AxisRef} (ha : a.Valid m) (hb : b.Valid m)
    (h : a.canMerge b m = true) : (a.merge b m).weight m = a.weight m + b.weight m := by
  have hnext := AxisRef.merge_nextPreSize h
  have hla := ha.preSize_le_nextPreSize
  have hlb := hb.preSize_le_nextPreSize
  rw [AxisRef.canMerge_iff] at h
  simp only [AxisRef.weight, hnext, AxisRef.merge_preSize]
  omega

/-- Merging keeps the weight. -/
theorem weight_mergeAdjacent (h : AllValid m l) : weight m (mergeAdjacent m l) = weight m l := by
  refine apply_mergeAdjacent h (fun _ _ ha hb hm => ha.merge hb hm) ?cons ?merge
  case cons =>
    intro a l r heq
    rw [weight_cons, weight_cons, heq]
  case merge =>
    intro a b l ha hb hm
    rw [weight_cons, weight_merge ha hb hm, weight_cons, weight_cons, Nat.add_assoc]

theorem weight_pos (hm : m.NoUnitAxes) (h : AllValid m l) (hl : l ≠ []) : 0 < weight m l := by
  cases l with
  | nil => exact absurd rfl hl
  | cons a rest =>
    have := ((allValid_cons.1 h).1).weight_pos hm
    rw [weight_cons]
    omega

section room

open Finset

/-- How often the list covers places of the axes of the mesh. -/
def covered (m : Mesh) (l : List AxisRef) : Nat :=
  (m.axes.map fun axis => ∑ c ∈ Ico 1 axis.size, coverage m axis.name c l).sum

theorem covered_cons (a : AxisRef) (l : List AxisRef) :
    covered m (a :: l) = covered m [a] + covered m l := by
  simp only [covered, coverage_cons _ _ a l, Finset.sum_add_distrib, List.sum_map_add]

/-- A reference covers as many places of its axis as it weighs. -/
theorem weight_le_covered_singleton {a : AxisRef} (h : a.Valid m) :
    a.weight m ≤ covered m [a] := by
  obtain ⟨axis, hmem, hname, hsize⟩ := h.exists_axis
  have hfull := Nat.le_of_dvd (a.fullSize_pos m) h.nextPreSize_dvd
  have hpos := h.preSize_pos
  have hsub : Ico a.preSize (a.nextPreSize m) ⊆ Ico 1 axis.size := by
    intro c hc
    rw [mem_Ico] at hc ⊢
    omega
  calc a.weight m = ∑ c ∈ Ico a.preSize (a.nextPreSize m), 1 := by simp [AxisRef.weight]
    _ ≤ ∑ c ∈ Ico a.preSize (a.nextPreSize m), coverage m axis.name c [a] := by
        refine sum_le_sum fun c hc => ?_
        rw [mem_Ico] at hc
        simp [coverage_singleton, AxisRef.covers, hname, hc.1, hc.2]
    _ ≤ ∑ c ∈ Ico 1 axis.size, coverage m axis.name c [a] := sum_le_sum_of_subset hsub
    _ ≤ covered m [a] := List.single_le_sum (by simp) _ (List.mem_map_of_mem hmem)

theorem weight_le_covered (h : AllValid m l) : weight m l ≤ covered m l := by
  induction l with
  | nil => exact Nat.zero_le _
  | cons a rest ih =>
    rw [allValid_cons] at h
    rw [weight_cons, covered_cons]
    exact Nat.add_le_add (weight_le_covered_singleton h.1) (ih h.2)

/-- A list that covers no place twice weighs at most what there is to cover. -/
theorem weight_le_capacity (h : AllValid m l) (ha : Apart m l) : weight m l ≤ m.capacity := by
  refine Nat.le_trans (weight_le_covered h) (List.sum_le_sum fun axis _ => ?_)
  calc ∑ c ∈ Ico 1 axis.size, coverage m axis.name c l
      ≤ ∑ _c ∈ Ico 1 axis.size, 1 := sum_le_sum fun c _ => ha axis.name c
    _ = axis.size - 1 := by simp

end room

end AxisList
end MeshSharding
