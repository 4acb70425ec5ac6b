import Mathlib.Data.List.Chain
import MeshSharding.Proofs.AxisList.Places

/-! The order of axis references. References are ordered by their axes, and on one axis by where
their windows begin and how long they are. Valid references that stand at one place of this order
are equal, so a list of them has one sorted form. -/
namespace MeshSharding
namespace AxisRef

open Std (TransCmp OrientedCmp)

variable {m : Mesh} {a b c : AxisRef}

/-- The order of the axes that two references are to. -/
def compareAxis (a b : AxisRef) (m : Mesh) : Ordering :=
  (Ord.compare (a.place m) (b.place m)).then (Ord.compare a.name b.name)

instance (m : Mesh) : TransCmp fun a b : AxisRef => a.compareAxis b m :=
  inferInstanceAs (TransCmp (compareLex (compareOn (place · m)) (compareOn name)))

instance (m : Mesh) : TransCmp fun a b : AxisRef => a.compare b m :=
  inferInstanceAs (TransCmp (compareLex (compareOn (place · m)) (compareLex (compareOn name)
    (compareLex (compareOn preSize) (compareOn (size · m))))))

theorem compareAxis_eq_iff : a.compareAxis b m = .eq ↔ a.name = b.name := by
  rw [compareAxis, Ordering.then_eq_eq, Nat.compare_eq_eq, Std.compare_eq_iff_eq]
  exact ⟨And.right, fun h => ⟨by rw [place, place, h], h⟩⟩

/-- The first reference is to an earlier axis than the second one. -/
def Earlier (m : Mesh) (a b : AxisRef) : Prop := a.compareAxis b m = .lt

theorem Earlier.trans (hab : Earlier m a b) (hbc : Earlier m b c) : Earlier m a c :=
  @TransCmp.lt_trans _ (compareAxis · · m) _ a b c hab hbc

theorem Earlier.name_ne (h : Earlier m a b) : a.name ≠ b.name := fun hn => by
  rw [Earlier, compareAxis_eq_iff.2 hn] at h
  cases h

theorem earlier_congr_left (h : a.name = b.name) : Earlier m a c ↔ Earlier m b c := by
  simp only [Earlier, compareAxis, place, h]

theorem earlier_congr_right (h : b.name = c.name) : Earlier m a b ↔ Earlier m a c := by
  simp only [Earlier, compareAxis, place, h]

/-- References are ordered by axis, start and size. -/
theorem isLE_compare_iff : (a.compare b m).isLE = true ↔ Earlier m a b ∨ a.name = b.name ∧
    (a.preSize < b.preSize ∨ a.preSize = b.preSize ∧ a.size m ≤ b.size m) := by
  have hsplit : a.compare b m = (a.compareAxis b m).then
      ((Ord.compare a.preSize b.preSize).then (Ord.compare (a.size m) (b.size m))) := by
    rw [compareAxis, Ordering.then_assoc, compare]
  rw [hsplit, Ordering.isLE_then_iff_or, Ordering.isLE_then_iff_or, compareAxis_eq_iff,
    Nat.compare_eq_lt, Nat.compare_eq_eq, Nat.isLE_compare, Earlier]

theorem isLE_compare_trans (hab : (a.compare b m).isLE = true) (hbc : (b.compare c m).isLE = true) :
    (a.compare c m).isLE = true :=
  @TransCmp.isLE_trans _ (compare · · m) _ a b c hab hbc

theorem isLE_compare_total (a b : AxisRef) :
    ((a.compare b m).isLE || (b.compare a m).isLE) = true := by
  have hswap : b.compare a m = (a.compare b m).swap :=
    @OrientedCmp.eq_swap _ (compare · · m) _ b a
  rw [hswap]
  cases a.compare b m <;> rfl

/-- The second of two references to one axis has the window of the first one, if it ends no later
and does not begin later. -/
theorem bounds_eq_of_isLE_compare (h : (a.compare b m).isLE = true) (hn : a.name = b.name)
    (hpre : b.preSize ≤ a.preSize) (hnext : b.nextPreSize m ≤ a.nextPreSize m) :
    a.preSize = b.preSize ∧ a.nextPreSize m = b.nextPreSize m := by
  rcases isLE_compare_iff.1 h with hearlier | ⟨-, hlt | ⟨hstart, hsize⟩⟩
  · exact absurd hn hearlier.name_ne
  · omega
  · have hle : a.nextPreSize m ≤ b.nextPreSize m := by
      rw [nextPreSize, nextPreSize, hstart]
      exact Nat.mul_le_mul_left _ hsize
    exact ⟨hstart, Nat.le_antisymm hle hnext⟩

/-- Valid references that stand at one place of the order are equal. -/
theorem Valid.eq_of_isLE_compare (ha : a.Valid m) (hb : b.Valid m)
    (hab : (a.compare b m).isLE = true) (hba : (b.compare a m).isLE = true) : a = b := by
  have hnot : Earlier m a b → ¬ Earlier m b a := fun h h' => (h.trans h').name_ne rfl
  rw [isLE_compare_iff] at hab hba
  rcases hab with h | ⟨hn, hab⟩
  · rcases hba with h' | ⟨hn, -⟩
    · exact absurd h' (hnot h)
    · exact absurd hn.symm h.name_ne
  · rcases hba with h' | ⟨-, hba⟩
    · exact absurd hn.symm h'.name_ne
    · have hpre : a.preSize = b.preSize := by omega
      have hsize : a.size m = b.size m := by omega
      exact ha.eq_of_bounds hb hn hpre (by rw [nextPreSize, nextPreSize, hpre, hsize])

/-- The first reference is to an earlier axis, or begins no later on the same axis. -/
def StartsBy (m : Mesh) (a b : AxisRef) : Prop :=
  Earlier m a b ∨ a.name = b.name ∧ a.preSize ≤ b.preSize

theorem startsBy_of_isLE_compare (h : (a.compare b m).isLE = true) : StartsBy m a b :=
  (isLE_compare_iff.1 h).imp_right fun ⟨hn, h⟩ => ⟨hn, by omega⟩

/-- The first reference is to an earlier axis, or both begins and ends sooner on the same axis. -/
def Leads (m : Mesh) (a b : AxisRef) : Prop := Earlier m a b ∨
  a.name = b.name ∧ a.preSize < b.preSize ∧ a.nextPreSize m < b.nextPreSize m

theorem Leads.isLE_compare (h : Leads m a b) : (a.compare b m).isLE = true :=
  isLE_compare_iff.2 (h.imp_right fun ⟨hn, hpre, _⟩ => ⟨hn, .inl hpre⟩)

theorem Leads.trans (hab : Leads m a b) (hbc : Leads m b c) : Leads m a c := by
  rcases hab with hab | ⟨hn, hpre, hnext⟩
  · rcases hbc with hbc | ⟨hn', -⟩
    · exact .inl (hab.trans hbc)
    · exact .inl ((earlier_congr_right hn').1 hab)
  · rcases hbc with hbc | ⟨hn', hpre', hnext'⟩
    · exact .inl ((earlier_congr_left hn).2 hbc)
    · exact .inr ⟨hn.trans hn', hpre.trans hpre', hnext.trans hnext'⟩

instance (m : Mesh) : Trans (Leads m) (Leads m) (Leads m) := ⟨Leads.trans⟩

theorem Leads.bounds (h : Leads m a b) (hn : a.name = b.name) :
    a.preSize < b.preSize ∧ a.nextPreSize m < b.nextPreSize m :=
  h.elim (fun h => absurd hn h.name_ne) And.right

end AxisRef

namespace AxisList

variable {m : Mesh} {l r : List AxisRef}

/-- The references in their order. -/
def sort (m : Mesh) (l : List AxisRef) : List AxisRef :=
  l.mergeSort fun a b => (a.compare b m).isLE

theorem sort_perm (l : List AxisRef) : (sort m l).Perm l := List.mergeSort_perm l _

theorem pairwise_sort (l : List AxisRef) :
    (sort m l).Pairwise fun a b => (a.compare b m).isLE = true :=
  @List.pairwise_mergeSort _ (fun a b => (a.compare b m).isLE)
    (fun _ _ _ => AxisRef.isLE_compare_trans) AxisRef.isLE_compare_total l

theorem sort_eq_self (h : l.Pairwise fun a b => (a.compare b m).isLE = true) : sort m l = l :=
  List.mergeSort_of_pairwise h

/-- The order in which valid references are given does not matter. -/
theorem sort_congr (hl : AllValid m l) (h : l.Perm r) : sort m l = sort m r := by
  have hperm : (sort m l).Perm (sort m r) := ((sort_perm l).trans h).trans (sort_perm r).symm
  refine hperm.eq_of_pairwise (fun a b ha hb hab hba => ?_) (pairwise_sort l) (pairwise_sort r)
  exact (hl a ((sort_perm l).mem_iff.1 ha)).eq_of_isLE_compare
    (hl b ((sort_perm l).mem_iff.1 (hperm.mem_iff.2 hb))) hab hba

end AxisList
end MeshSharding
