import MeshSharding.Layout
import MeshSharding.Proofs.AxisList.Core

/-! The parts of a dimension. The number of the part that a device holds is written in the
mixed radix of the sizes of the axes, so that appending axes cuts each part into
consecutive ones, and merging adjacent windows changes nothing. -/
namespace MeshSharding

namespace AxisRef

variable {m : Mesh} {a b : AxisRef} {place : List Nat}

theorem coordinate_lt (h : a.Valid m) : a.coordinate m place < a.size m :=
  Nat.mod_lt _ h.size_pos

theorem coordinate_eq_zero (h : a.size m = 1) : a.coordinate m place = 0 := by
  simp [coordinate, h, Nat.mod_one]

/-- The coordinate along a merged reference has the coordinates along both as digits. -/
theorem coordinate_merge (ha : a.Valid m) (hb : b.Valid m) (h : a.canMerge b m = true) :
    (a.merge b m).coordinate m place
      = a.coordinate m place * b.size m + b.coordinate m place := by
  have hnext := merge_nextPreSize h
  rw [canMerge_iff] at h
  have hplace : (a.merge b m).place m = b.place m := by simp [AxisRef.place, h.1]
  have hplace' : a.place m = b.place m := by simp [AxisRef.place, h.1]
  have hfull : a.fullSize m = b.fullSize m := fullSize_congr m h.1
  -- behind `b` there are `q` places, and behind `a` as many for each place of `b`
  obtain ⟨q, hq⟩ := hb.nextPreSize_dvd
  have hposb : 0 < b.nextPreSize m := Nat.mul_pos hb.preSize_pos hb.size_pos
  have hposa : 0 < a.nextPreSize m := Nat.mul_pos ha.preSize_pos ha.size_pos
  have hbehind : b.fullSize m / b.nextPreSize m = q := by
    rw [hq, Nat.mul_div_cancel_left _ hposb]
  have hbehind' : b.fullSize m / a.nextPreSize m = b.size m * q := by
    rw [hq, nextPreSize, ← h.2, Nat.mul_assoc, Nat.mul_div_cancel_left _ hposa]
  simp only [coordinate, hplace, hplace', merge_fullSize, hfull, hnext, merge_size, hbehind,
    hbehind']
  rw [Nat.mul_comm (a.size m), Nat.mod_mul, Nat.div_div_eq_div_mul, Nat.mul_comm q,
    Nat.mul_comm (b.size m) (_ % _), Nat.add_comm]

end AxisRef

namespace AxisList

variable {m : Mesh} {place : List Nat}

theorem foldl_partitionIndex (l : List AxisRef) (n : Nat) :
    l.foldl (fun index a => index * a.size m + a.coordinate m place) n
      = n * totalSize m l + partitionIndex m place l := by
  induction l generalizing n with
  | nil => simp [partitionIndex]
  | cons a rest ih =>
    simp only [partitionIndex, List.foldl_cons, totalSize_cons]
    rw [ih, ih (0 * a.size m + a.coordinate m place), Nat.add_mul, Nat.mul_assoc]
    simp [Nat.add_assoc]

@[simp] theorem partitionIndex_nil : partitionIndex m place [] = 0 := rfl

theorem partitionIndex_append (l r : List AxisRef) :
    partitionIndex m place (l ++ r)
      = partitionIndex m place l * totalSize m r + partitionIndex m place r := by
  rw [partitionIndex, List.foldl_append, foldl_partitionIndex]
  rfl

theorem partitionIndex_cons (a : AxisRef) (l : List AxisRef) :
    partitionIndex m place (a :: l)
      = a.coordinate m place * totalSize m l + partitionIndex m place l := by
  have : partitionIndex m place ([a] ++ l) = _ := partitionIndex_append [a] l
  simpa [partitionIndex] using this

theorem partitionIndex_lt {l : List AxisRef} (h : AllValid m l) :
    partitionIndex m place l < totalSize m l := by
  induction l with
  | nil => simp
  | cons a rest ih =>
    rw [allValid_cons] at h
    rw [partitionIndex_cons, totalSize_cons]
    exact Sizes.mul_add_lt (AxisRef.coordinate_lt h.1) (ih h.2)

theorem partitionIndex_merge_cons {a b : AxisRef} (ha : a.Valid m) (hb : b.Valid m)
    (hm : a.canMerge b m = true) (l : List AxisRef) :
    partitionIndex m place (a.merge b m :: l) = partitionIndex m place (a :: b :: l) := by
  rw [partitionIndex_cons, partitionIndex_cons, partitionIndex_cons,
    AxisRef.coordinate_merge ha hb hm, totalSize_cons, Nat.add_mul, Nat.mul_assoc, Nat.add_assoc]

/-- The parts are numbered by the coordinates and by the sizes of the references behind them, so
that both are kept at once. -/
theorem partitionIndex_mergeAdjacent {l : List AxisRef} (h : AllValid m l) :
    partitionIndex m place (mergeAdjacent m l) = partitionIndex m place l := by
  let f (l : List AxisRef) := (totalSize m l, partitionIndex m place l)
  have hf : f (mergeAdjacent m l) = f l := by
    refine apply_mergeAdjacent h (fun _ _ ha hb hm => ha.merge hb hm) ?cons ?merge
    case cons =>
      intro a l r heq
      obtain ⟨hsize, hindex⟩ := Prod.mk.inj heq
      simp only [f, totalSize_cons, partitionIndex_cons, hsize, hindex]
    case merge =>
      intro a b l ha hb hm
      simp only [f, totalSize_cons, AxisRef.merge_size, Nat.mul_assoc,
        partitionIndex_merge_cons ha hb hm]
  exact (Prod.mk.inj hf).2

theorem partitionIndex_trim {l : List AxisRef} (h : AllValid m l) :
    partitionIndex m place (trim m l) = partitionIndex m place l := by
  induction l with
  | nil => rfl
  | cons a rest ih =>
    rw [allValid_cons] at h
    have hpos := h.1.size_pos
    have hsize := totalSize_trim h.2
    have hrest := ih h.2
    unfold trim at hsize hrest ⊢
    by_cases hs : 1 < a.size m
    · simp [hs, partitionIndex_cons, hsize, hrest]
    · have h1 : a.size m = 1 := by omega
      simp [h1, partitionIndex_cons, AxisRef.coordinate_eq_zero h1, hrest]

/-- Devices hold the same parts of a dimension for all lists with one core. -/
theorem partitionIndex_core {l : List AxisRef} (h : AllValid m l) :
    partitionIndex m place (core m l) = partitionIndex m place l := by
  rw [core, partitionIndex_mergeAdjacent (h.subset (trim_subset l)), partitionIndex_trim h]

end AxisList

namespace Slice

end Slice
end MeshSharding
