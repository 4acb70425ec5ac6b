import Mathlib.Algebra.BigOperators.Group.Finset.Basic
import Mathlib.Data.List.Forall2
import Mathlib.Data.Nat.Count
import MeshSharding.Proofs.Layout.Partition
import MeshSharding.Proofs.Layout.Stride

/-! The spread of the parts over the devices. A digit of a number can be replaced without
touching the digits above and below it, so along graded references every combination of
coordinates occurs on equally many devices. -/
namespace MeshSharding

/-- Two properties that are carried to one another hold of equally many numbers. -/
theorem count_eq_of_inverse {P Q : Nat → Prop} [DecidablePred P] [DecidablePred Q] {n : Nat}
    (f g : Nat → Nat) (hf : ∀ i < n, P i → f i < n ∧ Q (f i) ∧ g (f i) = i)
    (hg : ∀ i < n, Q i → g i < n ∧ P (g i) ∧ f (g i) = i) : Nat.count P n = Nat.count Q n := by
  rw [Nat.count_eq_card_filter_range, Nat.count_eq_card_filter_range]
  refine Finset.card_bij' (fun i _ => f i) (fun i _ => g i) ?_ ?_ ?_ ?_ <;>
    simp only [Finset.mem_filter, Finset.mem_range, and_imp]
  · exact fun i hi hp => ⟨(hf i hi hp).1, (hf i hi hp).2.1⟩
  · exact fun i hi hq => ⟨(hg i hi hq).1, (hg i hi hq).2.1⟩
  · exact fun i hi hp => (hf i hi hp).2.2
  · exact fun i hi hq => (hg i hi hq).2.2

/-- Numbers are counted by the value that a function has on them. -/
theorem count_eq_sum_values {P : Nat → Prop} [DecidablePred P] {f : Nat → Nat} {k : Nat}
    (hf : ∀ i, P i → f i < k) (n : Nat) :
    Nat.count P n = ∑ v ∈ Finset.range k, Nat.count (fun i => P i ∧ f i = v) n := by
  simp only [Nat.count_eq_card_filter_range]
  rw [Finset.card_eq_sum_card_fiberwise (f := f) (t := Finset.range k)
    fun i hi => Finset.mem_coe.2 (Finset.mem_range.2 (hf i (Finset.mem_filter.1 hi).2))]
  exact Finset.sum_congr rfl fun v _ => by rw [Finset.filter_filter]

/-- Values that come equally often share what there is. -/
theorem mul_eq_count {P : Nat → Prop} [DecidablePred P] {f : Nat → Nat} {k share n : Nat}
    (hf : ∀ i, f i < k) (h : ∀ v < k, Nat.count (fun i => P i ∧ f i = v) n = share) :
    share * k = Nat.count P n := by
  rw [count_eq_sum_values (P := P) (fun i _ => hf i) n,
    Finset.sum_const_nat fun v hv => h v (Finset.mem_range.1 hv), Finset.card_range, Nat.mul_comm]

theorem countP_range (P : Nat → Prop) [DecidablePred P] (n : Nat) :
    (List.range n).countP (fun i => P i) = Nat.count P n := by
  induction n with
  | zero => rfl
  | succ n ih =>
    rw [List.range_succ, List.countP_append, ih, Nat.count_succ, List.countP_singleton]
    simp only [decide_eq_true_eq]

namespace Digit

variable {stride size stride' size' v i n : Nat}

/-- The number with another digit above `stride`, in the radix `size`. -/
def put (stride size v i : Nat) : Nat :=
  (i / (stride * size) * size + v) * stride + i % stride

theorem put_mod (v : Nat) : put stride size v i % stride = i % stride := by
  rw [put, Nat.mul_add_mod', Nat.mod_mod]

theorem put_div (h : 0 < stride) :
    put stride size v i / stride = i / (stride * size) * size + v := by
  rw [put, Nat.mul_comm _ stride, Nat.mul_add_div h, Nat.div_eq_of_lt (Nat.mod_lt _ h),
    Nat.add_zero]

theorem put_div_mul (h : 0 < stride) (hv : v < size) :
    put stride size v i / (stride * size) = i / (stride * size) := by
  rw [← Nat.div_div_eq_div_mul, put_div h, Nat.mul_comm _ size, Nat.mul_add_div (by omega),
    Nat.div_eq_of_lt hv, Nat.add_zero]

/-- The digit that is put is read back. -/
theorem put_self (h : 0 < stride) (hv : v < size) :
    put stride size v i / stride % size = v := by
  rw [put_div h, Nat.mul_add_mod', Nat.mod_eq_of_lt hv]

/-- The digits above stay as they are. -/
theorem put_above (h : 0 < stride) (hv : v < size) (hd : stride * size ∣ stride') :
    put stride size v i / stride' % size' = i / stride' % size' := by
  obtain ⟨n, rfl⟩ := hd
  rw [← Nat.div_div_eq_div_mul, ← Nat.div_div_eq_div_mul i, put_div_mul h hv]

/-- The digits below stay as they are. -/
theorem put_below (v : Nat) (hd : stride' * size' ∣ stride) :
    put stride size v i / stride' % size' = i / stride' % size' := by
  have hmod : put stride size v i % (stride' * size') = i % (stride' * size') := by
    rw [← Nat.mod_mod_of_dvd _ hd, put_mod, Nat.mod_mod_of_dvd _ hd]
  rw [← Nat.mod_mul_right_div_self, hmod, Nat.mod_mul_right_div_self]

/-- Numbers stay below a multiple of what the digits run through. -/
theorem put_lt (h : 0 < stride) (hv : v < size) (hd : stride * size ∣ n) (hi : i < n) :
    put stride size v i < n := by
  obtain ⟨q, rfl⟩ := hd
  have hpos : 0 < stride * size := Nat.mul_pos h (by omega)
  rw [Nat.mul_comm, ← Nat.div_lt_iff_lt_mul hpos] at hi ⊢
  rwa [put_div_mul h hv]

/-- Putting back the digit that was there gives the number back. -/
theorem put_put (h : 0 < stride) (hv : v < size) (hdigit : i / stride % size = n) :
    put stride size n (put stride size v i) = i := by
  rw [put, put_div_mul h hv, put_mod, ← hdigit, ← Nat.div_div_eq_div_mul, Nat.div_add_mod',
    Nat.div_add_mod']

/-- Whether a number has the property does not depend on the digit. -/
def Ignored (stride size : Nat) (P : Nat → Prop) : Prop :=
  ∀ i v, v < size → (P (put stride size v i) ↔ P i)

theorem Ignored.and {P Q : Nat → Prop} (hP : Ignored stride size P) (hQ : Ignored stride size Q) :
    Ignored stride size fun i => P i ∧ Q i :=
  fun i v hv => and_congr (hP i v hv) (hQ i v hv)

/-- A digit that a property ignores has each of its values equally often. -/
theorem count_mul {P : Nat → Prop} [DecidablePred P] (h : 0 < stride)
    (hd : stride * size ∣ n) (hP : Ignored stride size P) (hv : v < size) :
    Nat.count (fun i => P i ∧ i / stride % size = v) n * size = Nat.count P n := by
  have hsame : ∀ u < size, Nat.count (fun i => P i ∧ i / stride % size = u) n
      = Nat.count (fun i => P i ∧ i / stride % size = v) n := by
    intro u hu
    refine count_eq_of_inverse (put stride size v) (put stride size u) ?_ ?_
    · rintro i hi ⟨hp, hdigit⟩
      exact ⟨put_lt h hv hd hi, ⟨(hP i v hv).2 hp, put_self h hv⟩, put_put h hv hdigit⟩
    · rintro i hi ⟨hp, hdigit⟩
      exact ⟨put_lt h hu hd hi, ⟨(hP i u hu).2 hp, put_self h hu⟩, put_put h hu hdigit⟩
  exact mul_eq_count (fun i => Nat.mod_lt (i / stride) (by omega)) hsame

end Digit

namespace AxisRef

variable {m : Mesh} {a b : AxisRef}

/-- Whether a device has the property does not depend on its coordinate along the reference. -/
def Ignored (m : Mesh) (a : AxisRef) (P : Nat → Prop) : Prop :=
  Digit.Ignored (a.stride m) (a.size m) P

/-- Coordinates along a reference do not depend on those along one above or below it. -/
theorem Valid.coordinate_put (ha : a.Valid m) (hb : b.Valid m)
    (h : Above m a b ∨ Above m b a) {v : Nat} (hv : v < b.size m) (index : Nat) :
    a.coordinate m (m.coordinate (Digit.put (b.stride m) (b.size m) v index))
      = a.coordinate m (m.coordinate index) := by
  rw [ha.coordinate_eq, ha.coordinate_eq]
  rcases h with h | h
  · exact Digit.put_above hb.stride_pos hv h
  · exact Digit.put_below v h

/-- The devices with one coordinate are as many as those with another one. -/
theorem Valid.count_coordinate (h : a.Valid m) {P : Nat → Prop} [DecidablePred P]
    (hP : Ignored m a P) {v : Nat} (hv : v < a.size m) :
    Nat.count (fun i => P i ∧ a.coordinate m (m.coordinate i) = v) m.places * a.size m
      = Nat.count P m.places := by
  simp only [h.coordinate_eq]
  exact Digit.count_mul h.stride_pos h.cycle_dvd_places hP hv

end AxisRef

namespace AxisList

variable {m : Mesh} {a : AxisRef} {l : List AxisRef}

/-- The part of a dimension, sharded along the axes, that the device with the number holds. -/
def partOf (m : Mesh) (l : List AxisRef) (index : Nat) : Nat :=
  partitionIndex m (m.coordinate index) l

theorem partOf_cons (a : AxisRef) (l : List AxisRef) (index : Nat) :
    partOf m (a :: l) index
      = a.coordinate m (m.coordinate index) * totalSize m l + partOf m l index :=
  partitionIndex_cons a l

theorem partOf_lt (h : AllValid m l) (index : Nat) : partOf m l index < totalSize m l :=
  partitionIndex_lt h

/-- The part has the coordinate along the first axis as its first digit. -/
theorem partOf_cons_eq_iff (h : AllValid m l) {index k : Nat} : partOf m (a :: l) index = k ↔
    a.coordinate m (m.coordinate index) = k / totalSize m l ∧
      partOf m l index = k % totalSize m l := by
  have hlt := partOf_lt h index
  rw [partOf_cons]
  constructor
  · rintro rfl
    rw [Nat.mul_comm, Nat.mul_add_div (by omega), Nat.mul_add_mod, Nat.div_eq_of_lt hlt,
      Nat.mod_eq_of_lt hlt]
    exact ⟨rfl, rfl⟩
  · rintro ⟨hfirst, hrest⟩
    rw [hfirst, hrest, Nat.div_add_mod']

theorem partOf_put (hl : AllValid m l) (ha : a.Valid m)
    (h : ∀ b ∈ l, AxisRef.Above m b a ∨ AxisRef.Above m a b) {v : Nat} (hv : v < a.size m)
    (index : Nat) :
    partOf m l (Digit.put (a.stride m) (a.size m) v index) = partOf m l index := by
  induction l with
  | nil => rfl
  | cons b rest ih =>
    rw [allValid_cons] at hl
    rw [List.forall_mem_cons] at h
    rw [partOf_cons, partOf_cons, ih hl.2 h.2, hl.1.coordinate_put ha h.1 hv]

/-- Of the devices with a property that ignores the axes, equally many hold each part. -/
theorem count_partOf {P : Nat → Prop} [DecidablePred P] (hl : AllValid m l) (hg : Graded m l)
    (hP : ∀ a ∈ l, a.Ignored m P) {k : Nat} (hk : k < totalSize m l) :
    Nat.count (fun i => P i ∧ partOf m l i = k) m.places * totalSize m l
      = Nat.count P m.places := by
  induction l generalizing P k with
  | nil =>
    have hzero : k = 0 := by simpa using hk
    simp [hzero, partOf]
  | cons a rest ih =>
    rw [allValid_cons] at hl
    rw [List.forall_mem_cons] at hP
    obtain ⟨habove, hrest⟩ := List.pairwise_cons.1 hg
    have hpos := totalSize_pos hl.2
    have hfirst : k / totalSize m rest < a.size m := by
      rw [totalSize_cons] at hk
      exact (Nat.div_lt_iff_lt_mul hpos).2 hk
    -- the first coordinate is fixed first, which the other axes ignore
    have hignored : ∀ b ∈ rest, b.Ignored m fun i =>
        P i ∧ a.coordinate m (m.coordinate i) = k / totalSize m rest := by
      refine fun b hb => (hP.2 b hb).and fun i v hv => ?_
      rw [hl.1.coordinate_put (hl.2 b hb) (habove b hb) hv]
    have hinner := ih hl.2 hrest hignored (Nat.mod_lt k hpos)
    simp only [partOf_cons_eq_iff hl.2, ← and_assoc]
    rw [totalSize_cons, Nat.mul_comm (a.size m), ← Nat.mul_assoc, hinner,
      hl.1.count_coordinate hP.1 hfirst]

/-- The axes of a dimension make no more parts than there are devices. -/
theorem totalSize_dvd_places (hl : AllValid m l) (hg : Graded m l) :
    totalSize m l ∣ m.places := by
  have hcount := count_partOf (P := fun _ => True) hl hg (fun _ _ _ _ _ => Iff.rfl)
    (totalSize_pos hl)
  rw [Nat.count_true] at hcount
  exact Dvd.intro_left _ hcount

/-- The parts of several dimensions that a device holds. -/
def partsOf (m : Mesh) (ls : List (List AxisRef)) (index : Nat) : List Nat :=
  ls.map fun l => partOf m l index

theorem partsOf_lt {ls : List (List AxisRef)} (hl : AllValid m ls.flatten) (index : Nat) :
    List.Forall₂ (· < ·) (partsOf m ls index) (ls.map (totalSize m)) := by
  rw [partsOf, List.forall₂_map_left_iff, List.forall₂_map_right_iff, List.forall₂_same]
  exact fun l hmem => partOf_lt (hl.subset fun _ ha => List.mem_flatten.2 ⟨l, hmem, ha⟩) index

theorem count_partsOf {P : Nat → Prop} [DecidablePred P] {ls : List (List AxisRef)}
    (hl : AllValid m ls.flatten) (hg : Graded m ls.flatten)
    (hP : ∀ a ∈ ls.flatten, a.Ignored m P) {parts : List Nat}
    (hparts : List.Forall₂ (· < ·) parts (ls.map (totalSize m))) :
    Nat.count (fun i => P i ∧ partsOf m ls i = parts) m.places
      * Sizes.product (ls.map (totalSize m)) = Nat.count P m.places := by
  induction ls generalizing P parts with
  | nil =>
    cases hparts
    simp [partsOf]
  | cons l rest ih =>
    rw [List.map_cons] at hparts
    cases hparts with
    | @cons k _ ks _ hk hks =>
    rw [List.flatten_cons, allValid_append] at hl
    rw [List.flatten_cons] at hg hP
    obtain ⟨hgl, hgrest, hcross⟩ := List.pairwise_append.1 hg
    have hignored : ∀ b ∈ rest.flatten, b.Ignored m fun i => P i ∧ partOf m l i = k := by
      refine fun b hb => (hP b (List.mem_append_right _ hb)).and fun i v hv => ?_
      rw [partOf_put hl.1 (hl.2 b hb) (fun a ha => hcross a ha b hb) hv]
    have hinner := ih hl.2 hgrest hignored hks
    have houter := count_partOf hl.1 hgl (fun a ha => hP a (List.mem_append_left _ ha)) hk
    have hsplit : ∀ i, partsOf m (l :: rest) i = k :: ks ↔
        partOf m l i = k ∧ partsOf m rest i = ks := fun i => List.cons_eq_cons
    simp only [hsplit, ← and_assoc]
    rw [List.map_cons, Sizes.product_cons, Nat.mul_comm (totalSize m l), ← Nat.mul_assoc, hinner,
      houter]

end AxisList
end MeshSharding
