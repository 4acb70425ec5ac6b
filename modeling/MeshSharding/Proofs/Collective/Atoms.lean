import Mathlib.Algebra.BigOperators.Group.Finset.Piecewise
import Mathlib.Algebra.Order.Group.Multiset
import MeshSharding.Proofs.AxisList.Subdivision
import MeshSharding.Proofs.Sharding.Validity

/-! The atoms that a sharding spells. A collective acts on the atoms of the dimensions: a
move takes a suffix from one to another, a gather drops suffixes, a slice appends some. -/
namespace MeshSharding

open AxisList

/-- The atoms of dimensions `0, …, n - 1` in a row. -/
def flat (n : Nat) (A : Nat → List AxisRef) : List AxisRef := (List.range n).flatMap A

section flat

variable {m : Mesh} {n : Nat} {A B : Nat → List AxisRef}

theorem coe_flat : (flat n A : Multiset AxisRef) = ∑ i ∈ Finset.range n, (A i : Multiset _) := by
  induction n with
  | zero => rfl
  | succ n ih =>
    rw [Finset.sum_range_succ, ← ih]
    simp [flat, List.range_succ]

theorem mem_flat {a : AxisRef} : a ∈ flat n A ↔ ∃ i < n, a ∈ A i := by simp [flat]

theorem flat_congr (h : ∀ i < n, A i = B i) : flat n A = flat n B :=
  List.flatMap_congr fun i hi => h i (List.mem_range.1 hi)

theorem flat_perm_of_forall (h : ∀ i < n, (A i).Perm (B i)) : (flat n A).Perm (flat n B) := by
  rw [← Multiset.coe_eq_coe, coe_flat, coe_flat]
  exact Finset.sum_congr rfl fun i hi => Multiset.coe_eq_coe.2 (h i (Finset.mem_range.1 hi))

theorem flat_sublist (h : ∀ i, (A i).Sublist (B i)) : (flat n A).Sublist (flat n B) := by
  induction n with
  | zero => exact List.Sublist.refl _
  | succ n ih =>
    simp only [flat, List.range_succ, List.flatMap_append] at ih ⊢
    exact ih.append (by simpa using h n)

theorem flat_append (n : Nat) (A B : Nat → List AxisRef) :
    (flat n fun i => A i ++ B i).Perm (flat n A ++ flat n B) := by
  rw [← Multiset.coe_eq_coe, ← Multiset.coe_add, coe_flat, coe_flat, coe_flat,
    ← Finset.sum_add_distrib]
  rfl

theorem flat_getD (xs : List (List AxisRef)) :
    flat xs.length (fun i => xs.getD i []) = xs.flatten := by
  induction xs with
  | nil => rfl
  | cons x rest ih =>
    simp only [flat] at ih ⊢
    rw [List.length_cons, List.range_succ_eq_map, List.flatMap_cons, List.flatMap_map,
      List.flatten_cons, ← ih]
    rfl

/-- The atoms of the move pass from the end of its source to the end of its target. -/
structure Shifts (move : Move) (A B : Nat → List AxisRef) : Prop where
  source : A move.source = B move.source ++ move.axes
  target : B move.target = A move.target ++ move.axes
  other : ∀ k, k ≠ move.source → k ≠ move.target → B k = A k

/-- What holds of lists exactly if it holds of their parts passes on with a move. -/
theorem Shifts.forall {move : Move} (h : Shifts move A B) {P : List AxisRef → Prop}
    (happend : ∀ l r, P (l ++ r) ↔ P l ∧ P r) (hA : ∀ k, P (A k)) (k : Nat) : P (B k) := by
  have hsplit := (happend _ _).1 (h.source ▸ hA move.source)
  by_cases ht : k = move.target
  · rw [ht, h.target]
    exact (happend _ _).2 ⟨hA _, hsplit.2⟩
  · by_cases hs : k = move.source
    · exact hs ▸ hsplit.1
    · exact h.other k hs ht ▸ hA k

/-- A move between dimensions keeps all atoms. -/
theorem Shifts.flat_perm {move : Move} (h : Shifts move A B) (hs : move.source < n)
    (ht : move.target < n) (hne : move.source ≠ move.target) :
    (flat n A).Perm (flat n B) := by
  have hall : ∀ k, (A k : Multiset AxisRef) + (if k = move.target then ↑move.axes else 0)
      = (B k : Multiset AxisRef) + (if k = move.source then ↑move.axes else 0) := by
    intro k
    by_cases hks : k = move.source
    · subst hks
      simp [hne, h.source]
    · by_cases hkt : k = move.target
      · subst hkt
        simp [hks, h.target]
      · simp [hks, hkt, h.other k hks hkt]
  have hsum := Finset.sum_congr (rfl : Finset.range n = Finset.range n) fun k _ => hall k
  rw [Finset.sum_add_distrib, Finset.sum_add_distrib, ← coe_flat, ← coe_flat,
    Finset.sum_ite_eq', Finset.sum_ite_eq', if_pos (Finset.mem_range.2 ht),
    if_pos (Finset.mem_range.2 hs)] at hsum
  exact Multiset.coe_eq_coe.1 (add_right_cancel hsum)

theorem coverage_flat_of_forall {ds : List DimSharding} {name : String} {c : Nat}
    (h : ∀ (i : Nat) (d : DimSharding), ds[i]? = some d →
      coverage m name c d.axes = coverage m name c (A i)) :
    coverage m name c (ds.flatMap (·.axes)) = coverage m name c (flat ds.length A) := by
  induction ds generalizing A with
  | nil => rfl
  | cons d rest ih =>
    have hrest := ih (A := fun i => A (i + 1)) fun i e he => h (i + 1) e he
    simp only [flat] at hrest ⊢
    rw [List.flatMap_cons, List.length_cons, List.range_succ_eq_map, List.flatMap_cons,
      List.flatMap_map, coverage_append, coverage_append, hrest, h 0 d rfl]

theorem coverage_flatten_mergeAdjacent {xs : List (List AxisRef)}
    (h : AllValid m xs.flatten) (name : String) (c : Nat) :
    coverage m name c (xs.map (mergeAdjacent m)).flatten = coverage m name c xs.flatten := by
  induction xs with
  | nil => rfl
  | cons x rest ih =>
    rw [List.flatten_cons, allValid_append] at h
    simp [coverage_mergeAdjacent h.1, ih h.2]

theorem product_totalSize_of_forall {ds : List DimSharding}
    (h : ∀ (i : Nat) (d : DimSharding), ds[i]? = some d →
      totalSize m d.axes = totalSize m (A i)) :
    Sizes.product (ds.map fun d => totalSize m d.axes) = totalSize m (flat ds.length A) := by
  induction ds generalizing A with
  | nil => rfl
  | cons d rest ih =>
    have hrest := ih (A := fun i => A (i + 1)) fun i e he => h (i + 1) e he
    simp only [flat] at hrest ⊢
    rw [List.map_cons, Sizes.product_cons, List.length_cons, List.range_succ_eq_map,
      List.flatMap_cons, List.flatMap_map, totalSize_append, hrest, h 0 d rfl]

end flat

/-- The axes of every dimension spell the atoms of the dimension: they have one core. -/
structure Spells (m : Mesh) (s : TensorSharding) (A : Nat → List AxisRef) : Prop where
  axes : ∀ (dim : Nat) (d : DimSharding), s.dims[dim]? = some d → AllValid m d.axes
  atoms : ∀ dim, AllValid m (A dim)
  core : ∀ (dim : Nat) (d : DimSharding), s.dims[dim]? = some d →
    core m d.axes = core m (A dim)

namespace Spells

variable {m : Mesh} {s : TensorSharding} {A : Nat → List AxisRef}

theorem totalSize_eq (h : Spells m s A) {dim : Nat} {d : DimSharding}
    (hd : s.dims[dim]? = some d) : totalSize m d.axes = totalSize m (A dim) := by
  rw [← totalSize_core (h.axes dim d hd), h.core dim d hd, totalSize_core (h.atoms dim)]

theorem coverage_eq (h : Spells m s A) {dim : Nat} {d : DimSharding}
    (hd : s.dims[dim]? = some d) (name : String) (c : Nat) :
    coverage m name c d.axes = coverage m name c (A dim) := by
  rw [← coverage_core (h.axes dim d hd), h.core dim d hd, coverage_core (h.atoms dim)]

theorem coverage_dimAxes (h : Spells m s A) (name : String) (c : Nat) :
    coverage m name c s.dimAxes = coverage m name c (flat s.rank A) :=
  coverage_flat_of_forall fun _ _ hd => h.coverage_eq hd name c

theorem product_shardedSizes (h : Spells m s A) :
    Sizes.product (s.shardedSizes m) = totalSize m (flat s.rank A) :=
  product_totalSize_of_forall fun _ _ hd => h.totalSize_eq hd

theorem shardedSizes_eq {t : TensorSharding} {B : Nat → List AxisRef} (hs : Spells m s A)
    (ht : Spells m t B) (hrank : s.rank = t.rank)
    (hAB : ∀ dim < s.rank, totalSize m (A dim) = totalSize m (B dim)) :
    s.shardedSizes m = t.shardedSizes m := by
  have hlen : (s.shardedSizes m).length = (t.shardedSizes m).length := by
    simp only [TensorSharding.shardedSizes, List.length_map]
    exact hrank
  refine List.ext_getElem hlen fun dim h₁ h₂ => ?_
  have hs' : dim < s.dims.length := by simpa [TensorSharding.shardedSizes] using h₁
  have ht' : dim < t.dims.length := by simpa [TensorSharding.shardedSizes] using h₂
  simp only [TensorSharding.shardedSizes, List.getElem_map]
  rw [hs.totalSize_eq (List.getElem?_eq_getElem hs'),
    ht.totalSize_eq (List.getElem?_eq_getElem ht'), hAB dim hs']

theorem allValid_dimAxes (h : Spells m s A) : AllValid m s.dimAxes := by
  intro a ha
  obtain ⟨d, hd, had⟩ := List.mem_flatMap.1 ha
  obtain ⟨dim, hdim⟩ := List.mem_iff_getElem?.1 hd
  exact h.axes dim d hdim a had

end Spells
end MeshSharding
