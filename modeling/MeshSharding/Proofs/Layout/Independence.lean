import Mathlib.Algebra.BigOperators.Ring.Finset
import Mathlib.Data.Int.CardIntervalMod
import Mathlib.Data.Nat.ModEq
import Mathlib.Tactic.Linarith
import Mathlib.Tactic.Ring
import MeshSharding.Proofs.Layout.Spread

/-! Independent references. Two references of a valid sharding cover no common part of an axis,
but that alone does not make their coordinates independent: every pair of coordinates occurs on
the same number of devices exactly if the end of one reference divides the least common multiple
of both starts. -/
namespace MeshSharding

section counting

/-- Adding modulo `n` carries the numbers below `n` to one another. -/
theorem count_add_mod (P : Nat → Prop) [DecidablePred P] {n : Nat} (hn : 0 < n) (t : Nat) :
    Nat.count (fun i => P ((i + t) % n)) n = Nat.count P n := by
  have hback : ∀ i < n, (i + t + (n - t % n)) % n = i := by
    intro i hi
    have hdiv := Nat.div_add_mod t n
    have hmod := Nat.mod_lt t hn
    have hsum : i + t + (n - t % n) = i + n * (t / n + 1) := by
      rw [Nat.mul_succ]
      omega
    rw [hsum, Nat.add_mul_mod_self_left, Nat.mod_eq_of_lt hi]
  refine count_eq_of_inverse (fun i => (i + t) % n) (fun i => (i + (n - t % n)) % n) ?_ ?_
  · refine fun i hi hp => ⟨Nat.mod_lt _ hn, hp, ?_⟩
    rw [Nat.mod_add_mod, hback i hi]
  · have hforth : ∀ i < n, ((i + (n - t % n)) % n + t) % n = i := fun i hi => by
      rw [Nat.mod_add_mod, Nat.add_right_comm, hback i hi]
    refine fun i hi hp => ⟨Nat.mod_lt _ hn, ?_, hforth i hi⟩
    rwa [hforth i hi]

theorem count_lt (r s : Nat) : Nat.count (· < r) s = min s r := by
  induction s with
  | zero => simp
  | succ s ih =>
    rw [Nat.count_succ, ih]
    split <;> omega

/-- In each cycle there are as many small remainders, and the last one may be cut off. -/
theorem count_mod_lt {g r s : Nat} (q : Nat) (hs : s < g) (hr : r ≤ g) :
    Nat.count (fun x => x % g < r) (g * q + s) = q * r + min s r := by
  have hsmall : ∀ n ≤ g, Nat.count (fun x => x % g < r) n = min n r := by
    intro n hn
    rw [← count_lt, Nat.count_eq_card_filter_range, Nat.count_eq_card_filter_range]
    refine congrArg _ (Finset.filter_congr fun x hx => ?_)
    rw [Nat.mod_eq_of_lt (Nat.lt_of_lt_of_le (Finset.mem_range.1 hx) hn)]
  induction q with
  | zero => rw [Nat.mul_zero, Nat.zero_add, hsmall s (Nat.le_of_lt hs), Nat.zero_mul, Nat.zero_add]
  | succ q ih =>
    rw [show g * (q + 1) + s = g + (g * q + s) by rw [Nat.mul_succ]; omega, Nat.count_add,
      hsmall g (Nat.le_refl g), Nat.min_eq_right hr]
    simp only [Nat.add_mod_left]
    rw [ih, Nat.succ_mul]
    omega

variable {a b n w v : Nat}

/-- Two remainders occur together if they agree modulo the common divisor, and then once in
each common cycle. -/
theorem count_remainders (ha : 0 < a) (hb : 0 < b) (hn : Nat.lcm a b ∣ n) {x y : Nat}
    (hx : x < a) (hy : y < b) : Nat.count (fun i => i % a = x ∧ i % b = y) n
      = if y ≡ x [MOD Nat.gcd a b] then n / Nat.lcm a b else 0 := by
  split
  · rename_i h
    obtain ⟨z, hza, hzb⟩ := Nat.chineseRemainder' h.symm
    have hiff : ∀ i, (i % a = x ∧ i % b = y) ↔ i ≡ z [MOD Nat.lcm a b] := by
      intro i
      rw [← Nat.mod_eq_of_lt hx, ← Nat.mod_eq_of_lt hy]
      constructor
      · rintro ⟨hia, hib⟩
        exact Nat.mod_lcm (Nat.ModEq.trans hia hza.symm) (Nat.ModEq.trans hib hzb.symm)
      · intro hi
        exact ⟨(hi.of_dvd (Nat.dvd_lcm_left a b)).trans hza,
          (hi.of_dvd (Nat.dvd_lcm_right a b)).trans hzb⟩
    simp only [hiff]
    rw [Nat.count_modEq_card _ (Nat.lcm_pos ha hb), Nat.mod_eq_zero_of_dvd hn]
    simp
  · rename_i h
    rw [Nat.count_iff_forall_not]
    rintro i - ⟨rfl, rfl⟩
    exact h (((Nat.mod_modEq i b).of_dvd (Nat.gcd_dvd_right a b)).trans
      ((Nat.mod_modEq i a).of_dvd (Nat.gcd_dvd_left a b)).symm)

/-- How often two remainders are small at once. -/
theorem count_small_remainders (ha : 0 < a) (hb : 0 < b) (hn : Nat.lcm a b ∣ n) (hw : w ≤ a)
    (hv : v ≤ b) : Nat.count (fun i => i % a < w ∧ i % b < v) n = n / Nat.lcm a b
      * ∑ x ∈ Finset.range w, Nat.count (fun y => y ≡ x [MOD Nat.gcd a b]) v := by
  have hpair : ∀ x ∈ Finset.range w, ∀ y ∈ Finset.range v,
      Nat.count (fun i => ((i % a < w ∧ i % b < v) ∧ i % a = x) ∧ i % b = y) n
        = if y ≡ x [MOD Nat.gcd a b] then n / Nat.lcm a b else 0 := by
    intro x hx y hy
    rw [Finset.mem_range] at hx hy
    have hiff : ∀ i, (((i % a < w ∧ i % b < v) ∧ i % a = x) ∧ i % b = y) ↔
        i % a = x ∧ i % b = y := fun i => by omega
    simp only [hiff]
    exact count_remainders ha hb hn (Nat.lt_of_lt_of_le hx hw) (Nat.lt_of_lt_of_le hy hv)
  rw [count_eq_sum_values (f := (· % a)) (k := w) (fun i hi => hi.1), Finset.mul_sum]
  refine Finset.sum_congr rfl fun x hx => ?_
  rw [count_eq_sum_values (f := (· % b)) (k := v) (fun i hi => hi.1.2),
    Finset.sum_congr rfl (hpair x hx), ← Finset.sum_filter, Finset.sum_const_nat fun _ _ => rfl,
    ← Nat.count_eq_card_filter_range, Nat.mul_comm]

/-- How many pairs of small numbers agree modulo `g`. -/
theorem sum_count_modEq {g : Nat} (hg : 0 < g) (w v : Nat) :
    ∑ x ∈ Finset.range w, Nat.count (fun y => y ≡ x [MOD g]) v
      = w * (v / g) + (w / g * (v % g) + min (w % g) (v % g)) := by
  have hcount := count_mod_lt (w / g) (Nat.mod_lt w hg) (Nat.le_of_lt (Nat.mod_lt v hg))
  rw [Nat.div_add_mod] at hcount
  simp only [Nat.count_modEq_card _ hg]
  rw [Finset.sum_add_distrib, Finset.sum_const_nat fun _ _ => rfl, Finset.card_range,
    ← Finset.card_filter, ← Nat.count_eq_card_filter_range, hcount]

end counting

namespace Digit

variable {stride size stride' size' u v n : Nat}

/-- Every pair of digits occurs equally often below `n`. -/
def Independent (stride size stride' size' n : Nat) : Prop :=
  ∃ share, ∀ u < size, ∀ v < size',
    Nat.count (fun i => i / stride % size = u ∧ i / stride' % size' = v) n = share

theorem Independent.symm (h : Independent stride size stride' size' n) :
    Independent stride' size' stride size n := by
  obtain ⟨share, hshare⟩ := h
  refine ⟨share, fun v hv u hu => ?_⟩
  rw [← hshare u hu v hv]
  simp only [and_comm]

/-- Numbers that agree modulo the end of a digit have the same digit. -/
theorem congr_of_modEq {x y : Nat} (h : x ≡ y [MOD stride * size]) :
    x / stride % size = y / stride % size := by
  rw [← Nat.mod_mul_right_div_self, show x % (stride * size) = _ from h,
    Nat.mod_mul_right_div_self]

theorem succ_mod_eq_succ_iff {d k : Nat} (h : u + 1 < k) : (d + 1) % k = u + 1 ↔ d % k = u := by
  have hlt := Nat.mod_lt d (show 0 < k by omega)
  rw [← Nat.mod_add_mod]
  rcases Nat.lt_or_ge (d % k + 1) k with hd | hd
  · rw [Nat.mod_eq_of_lt hd]
    omega
  · rw [show d % k + 1 = k by omega, Nat.mod_self]
    omega

/-- If the common divisor of the ends of two digits divides the stride of the second, some number
can be added that raises the second and keeps the first. -/
theorem count_succ (hs : 0 < stride') (hn : 0 < n) (hd : stride * size ∣ n)
    (hd' : stride' * size' ∣ n) (h : Nat.gcd (stride * size) (stride' * size') ∣ stride')
    (hv : v + 1 < size') :
    Nat.count (fun i => i / stride % size = u ∧ i / stride' % size' = v) n
      = Nat.count (fun i => i / stride % size = u ∧ i / stride' % size' = v + 1) n := by
  obtain ⟨t, ht, ht'⟩ := Nat.chineseRemainder' (Nat.modEq_zero_iff_dvd.2 h).symm
  rw [← count_add_mod (fun i => i / stride % size = u ∧ i / stride' % size' = v + 1) hn t]
  have hfirst : ∀ i, (i + t) % n / stride % size = i / stride % size := fun i =>
    congr_of_modEq (((Nat.mod_modEq _ n).of_dvd hd).trans (ht.add_left i))
  have hsecond : ∀ i, (i + t) % n / stride' % size' = (i / stride' + 1) % size' := by
    intro i
    rw [congr_of_modEq (((Nat.mod_modEq _ n).of_dvd hd').trans (ht'.add_left i)),
      Nat.add_div_right _ hs]
  simp only [hfirst, hsecond, succ_mod_eq_succ_iff hv]

theorem count_digit (hs : 0 < stride) (hd : stride * size ∣ n) (hu : u < size) :
    Nat.count (fun i => i / stride % size = u) n * size = n := by
  have hcount := count_mul (P := fun _ => True) hs hd (fun _ _ _ => Iff.rfl) hu
  simpa using hcount

/-- Digits are independent if the common divisor of their ends divides one of the strides. -/
theorem independent_of_dvd (hs : 0 < stride) (hs' : 0 < stride') (hn : 0 < n)
    (hd : stride * size ∣ n) (hd' : stride' * size' ∣ n)
    (h : Nat.gcd (stride * size) (stride' * size') ∣ stride') :
    Independent stride size stride' size' n := by
  refine ⟨n / size / size', fun u hu v hv => ?_⟩
  have hzero : ∀ v < size',
      Nat.count (fun i => i / stride % size = u ∧ i / stride' % size' = v) n
        = Nat.count (fun i => i / stride % size = u ∧ i / stride' % size' = 0) n := by
    intro v
    induction v with
    | zero => exact fun _ => rfl
    | succ v ih => exact fun hv => (count_succ hs' hn hd hd' h hv).symm.trans (ih (by omega))
  have hsize : 0 < size := by omega
  have hsize' : 0 < size' := by omega
  have hpair := mul_eq_count (fun i => Nat.mod_lt (i / stride') hsize') fun w hw =>
    (hzero w hw).trans (hzero v hv).symm
  rw [Nat.div_eq_of_eq_mul_left hsize (count_digit hs hd hu).symm,
    Nat.div_eq_of_eq_mul_left hsize' hpair.symm]

theorem digit_eq_zero_iff (hs : 0 < stride) (i : Nat) :
    i / stride % size = 0 ↔ i % (stride * size) < stride := by
  rw [← Nat.mod_mul_right_div_self, Nat.div_eq_zero_iff]
  omega

/-- Independent digits fill the common cycles of their ends evenly. -/
theorem Independent.sum_mul_gcd (h : Independent stride size stride' size' n) (hs : 0 < stride)
    (hs' : 0 < stride') (hsize : 0 < size) (hsize' : 0 < size') (hn : 0 < n)
    (hd : stride * size ∣ n) (hd' : stride' * size' ∣ n) :
    (∑ x ∈ Finset.range stride,
      Nat.count (fun y => y ≡ x [MOD Nat.gcd (stride * size) (stride' * size')]) stride')
        * Nat.gcd (stride * size) (stride' * size') = stride * stride' := by
  obtain ⟨share, hshare⟩ := h
  have hfirst := count_digit hs hd hsize
  rw [← mul_eq_count (fun i => Nat.mod_lt (i / stride') hsize') (hshare 0 hsize)] at hfirst
  have hzero := hshare 0 hsize 0 hsize'
  have hcycle := Nat.mul_pos hs hsize
  have hcycle' := Nat.mul_pos hs' hsize'
  simp only [digit_eq_zero_iff hs, digit_eq_zero_iff hs'] at hzero
  rw [count_small_remainders hcycle hcycle' (Nat.lcm_dvd hd hd') (Nat.le_mul_of_pos_right _ hsize)
    (Nat.le_mul_of_pos_right _ hsize')] at hzero
  obtain ⟨q, hq⟩ := Nat.lcm_dvd hd hd'
  have hlcm := Nat.gcd_mul_lcm (stride * size) (stride' * size')
  have hpos := Nat.lcm_pos hcycle hcycle'
  generalize Nat.gcd (stride * size) (stride' * size') = g at *
  generalize Nat.lcm (stride * size) (stride' * size') = c at *
  subst hq
  have hq : 0 < q := Nat.pos_of_mul_pos_left hn
  rw [Nat.mul_div_cancel_left _ hpos] at hzero
  generalize ∑ x ∈ Finset.range stride, Nat.count (fun y => y ≡ x [MOD g]) stride' = total at *
  have htotal : total * (size * size') = c := by
    refine Nat.eq_of_mul_eq_mul_left hq ?_
    rw [← hzero] at hfirst
    linarith
  refine Nat.eq_of_mul_eq_mul_right (Nat.mul_pos hsize hsize') ?_
  calc total * g * (size * size') = g * (total * (size * size')) := by ring
    _ = stride * stride' * (size * size') := by rw [htotal, hlcm]; ring

/-- Digits are not independent if both strides leave a remainder. -/
theorem Independent.dvd (h : Independent stride size stride' size' n) (hs : 0 < stride)
    (hs' : 0 < stride') (hsize : 0 < size) (hsize' : 0 < size') (hn : 0 < n)
    (hd : stride * size ∣ n) (hd' : stride' * size' ∣ n) :
    Nat.gcd (stride * size) (stride' * size') ∣ stride ∨
      Nat.gcd (stride * size) (stride' * size') ∣ stride' := by
  have hsum := h.sum_mul_gcd hs hs' hsize hsize' hn hd hd'
  have hg : 0 < Nat.gcd (stride * size) (stride' * size') :=
    Nat.gcd_pos_of_pos_left _ (Nat.mul_pos hs hsize)
  generalize Nat.gcd (stride * size) (stride' * size') = g at hsum hg ⊢
  rw [sum_count_modEq hg] at hsum
  have hw := Nat.div_add_mod stride g
  have hv := Nat.div_add_mod stride' g
  have hlt := Nat.mod_lt stride hg
  have hlt' := Nat.mod_lt stride' hg
  rw [Nat.dvd_iff_mod_eq_zero, Nat.dvd_iff_mod_eq_zero]
  generalize stride / g = q at *
  generalize stride' / g = q' at *
  generalize stride % g = r at *
  generalize stride' % g = r' at *
  subst hw hv
  have hmin : min r r' * g = r * r' := by linarith
  rcases Nat.le_total r r' with hle | hle
  · rw [Nat.min_eq_left hle] at hmin
    by_contra hne
    have hgr := Nat.eq_of_mul_eq_mul_left (show 0 < r by omega) hmin
    omega
  · rw [Nat.min_eq_right hle, Nat.mul_comm r] at hmin
    by_contra hne
    have hgr := Nat.eq_of_mul_eq_mul_left (show 0 < r' by omega) hmin
    omega

end Digit

/-- What divides both quotients divides a third one if the third divisor divides the least common
multiple of the first two. -/
theorem gcd_div_dvd_div_iff {n p q x : Nat} (hn : 0 < n) (hp : p ∣ n) (hq : q ∣ n) (hx : x ∣ n) :
    Nat.gcd (n / p) (n / q) ∣ n / x ↔ x ∣ Nat.lcm p q := by
  have hg : Nat.gcd (n / p) (n / q) ∣ n := (Nat.gcd_dvd_left ..).trans (Nat.div_dvd_of_dvd hp)
  have hswap : ∀ {y : Nat}, y ∣ n →
      (Nat.gcd (n / p) (n / q) ∣ n / y ↔ y ∣ n / Nat.gcd (n / p) (n / q)) := fun {y} hy => by
    rw [Nat.dvd_div_iff_mul_dvd hy, Nat.dvd_div_iff_mul_dvd hg, Nat.mul_comm]
  have hlcm : n / Nat.gcd (n / p) (n / q) = Nat.lcm p q := by
    refine Nat.dvd_antisymm ?_ (Nat.lcm_dvd ((hswap hp).1 (Nat.gcd_dvd_left ..))
      ((hswap hq).1 (Nat.gcd_dvd_right ..)))
    have hl : Nat.lcm p q ∣ n := Nat.lcm_dvd hp hq
    have hdvd : n / Nat.lcm p q ∣ Nat.gcd (n / p) (n / q) :=
      Nat.dvd_gcd (Nat.div_dvd_div_left hl (Nat.dvd_lcm_left p q))
        (Nat.div_dvd_div_left hl (Nat.dvd_lcm_right p q))
    simpa only [Nat.div_div_self hl (Nat.ne_of_gt hn)] using Nat.div_dvd_div_left hg hdvd
  rw [hswap hx, hlcm]

namespace AxisRef

variable {m : Mesh} {a b : AxisRef}

/-- Every pair of coordinates along the references occurs on the same number of devices. -/
def Independent (m : Mesh) (a b : AxisRef) : Prop :=
  ∃ share, ∀ u < a.size m, ∀ v < b.size m,
    Nat.count (fun index => a.coordinate m (m.coordinate index) = u ∧
      b.coordinate m (m.coordinate index) = v) m.places = share

theorem Valid.independent_iff_dvd (ha : a.Valid m) (hb : b.Valid m) : Independent m a b ↔
    Nat.gcd (a.stride m * a.size m) (b.stride m * b.size m) ∣ a.stride m ∨
      Nat.gcd (a.stride m * a.size m) (b.stride m * b.size m) ∣ b.stride m := by
  have hdigit : Independent m a b ↔
      Digit.Independent (a.stride m) (a.size m) (b.stride m) (b.size m) m.places := by
    simp only [Independent, Digit.Independent, ha.coordinate_eq, hb.coordinate_eq]
  rw [hdigit]
  constructor
  · intro h
    exact h.dvd ha.stride_pos hb.stride_pos ha.size_pos hb.size_pos m.places_pos
      ha.cycle_dvd_places hb.cycle_dvd_places
  · rintro (h | h)
    · rw [Nat.gcd_comm] at h
      exact (Digit.independent_of_dvd hb.stride_pos ha.stride_pos m.places_pos
        hb.cycle_dvd_places ha.cycle_dvd_places h).symm
    · exact Digit.independent_of_dvd ha.stride_pos hb.stride_pos m.places_pos
        ha.cycle_dvd_places hb.cycle_dvd_places h

/-- The stride in terms of the bounds of the windows, for references to one axis. -/
theorem Valid.gcd_dvd_stride_iff (ha : a.Valid m) (hb : b.Valid m) (hn : a.name = b.name) :
    Nat.gcd (a.stride m * a.size m) (b.stride m * b.size m) ∣ a.stride m ↔
      a.nextPreSize m ∣ Nat.lcm a.preSize b.preSize := by
  have hplace : a.place m = b.place m := by simp [place, hn]
  have hfull : a.fullSize m = b.fullSize m := fullSize_congr m hn
  rw [ha.stride_mul_size, hb.stride_mul_size, stride, hplace, hfull, Nat.gcd_mul_left,
    Nat.mul_dvd_mul_iff_left (m.behind_pos _)]
  exact gcd_div_dvd_div_iff (b.fullSize_pos m) (hfull ▸ ha.preSize_dvd) hb.preSize_dvd
    (hfull ▸ ha.nextPreSize_dvd)

/-- Coordinates along two references are independent exactly if the references are to different
axes or the end of one divides the least common multiple of both starts. -/
theorem Valid.independent_iff (ha : a.Valid m) (hb : b.Valid m) : Independent m a b ↔
    a.name ≠ b.name ∨ a.nextPreSize m ∣ Nat.lcm a.preSize b.preSize ∨
      b.nextPreSize m ∣ Nat.lcm a.preSize b.preSize := by
  rw [ha.independent_iff_dvd hb]
  by_cases hn : a.name = b.name
  · rw [ha.gcd_dvd_stride_iff hb hn, Nat.gcd_comm, hb.gcd_dvd_stride_iff ha hn.symm,
      Nat.lcm_comm b.preSize]
    simp [hn]
  · refine iff_of_true ?_ (.inl hn)
    rcases ha.above_of_name_ne hb hn with h | h
    · exact .inl ((Nat.gcd_dvd_right _ _).trans h)
    · exact .inr ((Nat.gcd_dvd_left _ _).trans h)

end AxisRef

namespace TensorSharding

open AxisList

/-- References of a valid sharding do not overlap. Their coordinates are independent exactly if
they are to different axes or the end of one divides the least common multiple of both starts. -/
theorem independent_iff_of_validate (m : Mesh) (s : TensorSharding) (shape : Shape)
    (hs : s.validate m shape = .ok ()) (i j : Nat) (hij : i ≠ j) (a b : AxisRef)
    (ha : s.usedAxes[i]? = some a) (hb : s.usedAxes[j]? = some b) :
    a.overlaps b m = false ∧
      (a.Independent m b ↔ a.name ≠ b.name ∨ a.nextPreSize m ∣ Nat.lcm a.preSize b.preSize ∨
        b.nextPreSize m ∣ Nat.lcm a.preSize b.preSize) := by
  obtain ⟨-, hvalid, hapart⟩ := validate_eq_ok_iff.1 hs
  have hpairwise := List.pairwise_iff_getElem.1 (hapart.pairwise hvalid)
  obtain ⟨hi, rfl⟩ := List.getElem?_eq_some_iff.1 ha
  obtain ⟨hj, rfl⟩ := List.getElem?_eq_some_iff.1 hb
  refine ⟨?_, (hvalid _ (List.getElem_mem hi)).independent_iff (hvalid _ (List.getElem_mem hj))⟩
  rcases Nat.lt_or_gt_of_ne hij with hlt | hlt
  · simpa using hpairwise i j hi hj hlt
  · rw [AxisRef.overlaps_comm]
    simpa using hpairwise j i hj hi hlt

/-- Both halves of an axis. -/
theorem independent_iff_of_validate_grid :
    let m := Mesh.grid 4 2 (by decide) (by decide)
    let a := AxisRef.sub "x" 2 2
    let b := AxisRef.sub "x" 1 2
    a.overlaps b m = false ∧
      (a.Independent m b ↔ a.name ≠ b.name ∨ a.nextPreSize m ∣ Nat.lcm a.preSize b.preSize ∨
        b.nextPreSize m ∣ Nat.lcm a.preSize b.preSize) :=
  independent_iff_of_validate _
    (.ofDims "mesh" [.ofAxes [.sub "x" 2 2, .full "y"] true, .ofAxes [.sub "x" 1 2] true]) [8, 8]
    (by decide) 0 2 (by decide) _ _ rfl rfl

/-- The windows do not overlap, but neither ends where the other one begins in the common
cycle: of the devices with the first half of the axis, two in three have an even place. -/
theorem not_independent_of_validate :
    let m := Mesh.grid 6 2 (by decide) (by decide)
    let s := TensorSharding.ofDims "mesh" [.ofAxes [.sub "x" 1 2, .sub "x" 3 2] true]
    s.validate m [12] = .ok () ∧ s.usedAxes = [.sub "x" 1 2, .sub "x" 3 2] ∧
      ¬ AxisRef.Independent m (.sub "x" 1 2) (.sub "x" 3 2) := by
  refine ⟨by decide, by decide, ?_⟩
  rintro ⟨share, h⟩
  have heven := (h 0 (by decide) 0 (by decide)).trans (h 0 (by decide) 1 (by decide)).symm
  revert heven
  decide

end TensorSharding
end MeshSharding
