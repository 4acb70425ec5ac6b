import MeshSharding.Layout
import MeshSharding.Proofs.AxisList.Subdivision
import MeshSharding.Proofs.Sharding.Validity

/-! Strides. The coordinate of a device along a reference is a digit of the number of the
device: it changes after as many devices as the stride of the reference says. Two references
without a common part are one above the other, if the end of one divides the start of the
other or if they refer to different axes. -/
namespace MeshSharding

theorem Sizes.product_pos {sizes : List Nat} (h : ∀ n ∈ sizes, 0 < n) : 0 < product sizes := by
  induction sizes with
  | nil => exact Nat.zero_lt_one
  | cons n rest ih =>
    rw [List.forall_mem_cons] at h
    exact Nat.mul_pos h.1 (ih h.2)

namespace Mesh

theorem getElem?_digits (sizes : List Nat) (index i : Nat) :
    (digits sizes index)[i]?
      = sizes[i]?.map fun size => index / Sizes.product (sizes.drop (i + 1)) % size := by
  induction sizes generalizing i with
  | nil => simp [digits]
  | cons size rest ih =>
    cases i with
    | zero => simp [digits]
    | succ i => simp [digits, ih]

/-- The number of devices that share the places of the axes up to number `index`. -/
def behind (m : Mesh) (index : Nat) : Nat :=
  Sizes.product ((m.axes.drop (index + 1)).map (·.size))

theorem product_pos (axes : List MeshAxis) : 0 < Sizes.product (axes.map (·.size)) :=
  Sizes.product_pos (List.forall_mem_map.2 fun axis _ => axis.size_pos)

theorem places_pos (m : Mesh) : 0 < m.places := product_pos _

theorem behind_pos (m : Mesh) (index : Nat) : 0 < m.behind index := product_pos _

theorem product_drop {axes : List MeshAxis} {i : Nat} {axis : MeshAxis}
    (h : axes[i]? = some axis) : Sizes.product ((axes.drop i).map (·.size))
      = axis.size * Sizes.product ((axes.drop (i + 1)).map (·.size)) := by
  obtain ⟨hlt, rfl⟩ := List.getElem?_eq_some_iff.1 h
  rw [List.drop_eq_getElem_cons hlt, List.map_cons, Sizes.product_cons]

theorem product_drop_dvd (axes : List MeshAxis) {i j : Nat} (h : i ≤ j) :
    Sizes.product ((axes.drop j).map (·.size)) ∣ Sizes.product ((axes.drop i).map (·.size)) := by
  obtain ⟨n, rfl⟩ := Nat.exists_eq_add_of_le h
  have hsplit := List.take_append_drop n (axes.drop i)
  rw [List.drop_drop] at hsplit
  rw [← hsplit, List.map_append, Sizes.product_append]
  exact Nat.dvd_mul_left ..

/-- An axis is stepped through as a whole while an earlier one stays at a place. -/
theorem size_mul_behind_dvd {m : Mesh} {i j : Nat} {axis : MeshAxis}
    (h : m.axes[j]? = some axis) (hij : i < j) : axis.size * m.behind j ∣ m.behind i := by
  rw [behind, ← product_drop h]
  exact product_drop_dvd m.axes hij

theorem size_mul_behind_dvd_places {m : Mesh} {j : Nat} {axis : MeshAxis}
    (h : m.axes[j]? = some axis) : axis.size * m.behind j ∣ m.places := by
  rw [behind, ← product_drop h]
  exact product_drop_dvd m.axes (Nat.zero_le j)

theorem deviceCount_eq_ok {m : Mesh} {count : Nat} (h : m.deviceCount = .ok count) :
    count = m.places ∧ count < wordBound := by
  unfold deviceCount countOf at h
  dsimp only at h
  split at h
  · rename_i hlt
    cases h
    exact ⟨rfl, hlt⟩
  · cases h

end Mesh

namespace AxisRef

variable {m : Mesh} {a b : AxisRef}

/-- The number of consecutive devices that have one coordinate along the reference. -/
def stride (a : AxisRef) (m : Mesh) : Nat :=
  m.behind (a.place m) * (a.fullSize m / a.nextPreSize m)

/-- The mesh has the axis of a valid reference at its place. -/
theorem Valid.getElem?_place (h : a.Valid m) : ∃ axis, m.axes[a.place m]? = some axis ∧
    axis.name = a.name ∧ axis.size = a.fullSize m := by
  obtain ⟨axis, hfind, hsize⟩ := Option.map_eq_some_iff.1 h.known
  obtain ⟨hname, i, hi, rfl, hfirst⟩ := List.find?_eq_some_iff_getElem.1 hfind
  have hindex : m.axisIndex? a.name = some i :=
    List.findIdx?_eq_some_iff_getElem.2 ⟨hi, hname, fun j hj => by simpa using hfirst j hj⟩
  refine ⟨m.axes[i], ?_, by simpa using hname, hsize⟩
  rw [place, hindex, Option.getD_some, List.getElem?_eq_getElem hi]

theorem Valid.name_eq_of_place (ha : a.Valid m) (hb : b.Valid m) (h : a.place m = b.place m) :
    a.name = b.name := by
  obtain ⟨axis, haxis, hname, -⟩ := ha.getElem?_place
  obtain ⟨axis', haxis', hname', -⟩ := hb.getElem?_place
  rw [h, haxis'] at haxis
  cases haxis
  rw [← hname, hname']

theorem Valid.nextPreSize_pos (h : a.Valid m) : 0 < a.nextPreSize m :=
  Nat.mul_pos h.preSize_pos h.size_pos

theorem Valid.preSize_dvd (h : a.Valid m) : a.preSize ∣ a.fullSize m :=
  (Nat.dvd_mul_right ..).trans h.nextPreSize_dvd

theorem Valid.behind_le_stride (h : a.Valid m) : m.behind (a.place m) ≤ a.stride m :=
  Nat.le_mul_of_pos_right _
    (Nat.div_pos (Nat.le_of_dvd (a.fullSize_pos m) h.nextPreSize_dvd) h.nextPreSize_pos)

theorem Valid.stride_pos (h : a.Valid m) : 0 < a.stride m :=
  Nat.lt_of_lt_of_le (m.behind_pos _) h.behind_le_stride

/-- The coordinate of a device along a reference is a digit of its number. -/
theorem Valid.coordinate_eq (h : a.Valid m) (index : Nat) :
    a.coordinate m (m.coordinate index) = index / a.stride m % a.size m := by
  obtain ⟨axis, haxis, -, hsize⟩ := h.getElem?_place
  have hplace : (m.coordinate index).getD (a.place m) 0
      = index / m.behind (a.place m) % a.fullSize m := by
    rw [List.getD_eq_getElem?_getD, Mesh.coordinate, Mesh.getElem?_digits, List.getElem?_map,
      haxis, ← hsize, Mesh.behind, List.map_drop]
    rfl
  obtain ⟨rest, hrest⟩ := h.nextPreSize_dvd
  have hdiv : a.fullSize m / a.nextPreSize m = rest := by
    rw [hrest, Nat.mul_div_cancel_left _ h.nextPreSize_pos]
  have hdvd : a.size m ∣ a.nextPreSize m := Nat.dvd_mul_left ..
  rw [coordinate, hplace, stride, hdiv, hrest, Nat.mod_mul_left_div_self,
    Nat.mod_mod_of_dvd _ hdvd, Nat.div_div_eq_div_mul]

/-- All coordinates along a reference are run through while the part of the axis before it
stays as it is. -/
theorem Valid.stride_mul_size (h : a.Valid m) :
    a.stride m * a.size m = m.behind (a.place m) * (a.fullSize m / a.preSize) := by
  have hmul : a.fullSize m / a.nextPreSize m * a.size m = a.fullSize m / a.preSize := by
    rw [nextPreSize, ← Nat.div_div_eq_div_mul, Nat.div_mul_cancel]
    exact Nat.dvd_div_of_mul_dvd h.nextPreSize_dvd
  rw [stride, Nat.mul_assoc, hmul]

/-- The coordinates along a reference run in cycles within each place of the axes before. -/
theorem Valid.cycle_dvd (h : a.Valid m) :
    a.stride m * a.size m ∣ a.fullSize m * m.behind (a.place m) := by
  rw [h.stride_mul_size, Nat.mul_comm]
  exact Nat.mul_dvd_mul_right (Nat.div_dvd_of_dvd h.preSize_dvd) _

theorem Valid.cycle_dvd_places (h : a.Valid m) : a.stride m * a.size m ∣ m.places := by
  obtain ⟨axis, haxis, -, hsize⟩ := h.getElem?_place
  exact h.cycle_dvd.trans (hsize ▸ Mesh.size_mul_behind_dvd_places haxis)

/-- Within the places of its axis a reference of size above 1 has coordinates above 0. -/
theorem Valid.stride_lt (h : a.Valid m) (hs : 1 < a.size m) :
    a.stride m < a.fullSize m * m.behind (a.place m) :=
  calc a.stride m < a.stride m * a.size m := by
        simpa using Nat.mul_lt_mul_of_pos_left hs h.stride_pos
    _ ≤ _ := Nat.le_of_dvd (Nat.mul_pos (a.fullSize_pos m) (m.behind_pos _)) h.cycle_dvd

/-- A number of devices between one place of an axis and all its places tells the axis. -/
theorem Valid.place_eq (ha : a.Valid m) (hb : b.Valid m) {n : Nat}
    (hla : m.behind (a.place m) ≤ n) (hra : n < a.fullSize m * m.behind (a.place m))
    (hlb : m.behind (b.place m) ≤ n) (hrb : n < b.fullSize m * m.behind (b.place m)) :
    a.place m = b.place m := by
  have hnot : ∀ {x y : AxisRef}, y.Valid m → m.behind (x.place m) ≤ n →
      n < y.fullSize m * m.behind (y.place m) → ¬ x.place m < y.place m := by
    intro x y hy hle hlt hplace
    obtain ⟨axis, haxis, -, hsize⟩ := hy.getElem?_place
    have hdvd := Mesh.size_mul_behind_dvd haxis hplace
    rw [hsize] at hdvd
    have := Nat.le_of_dvd (m.behind_pos _) hdvd
    omega
  have hab := hnot hb hla hrb
  have hba := hnot ha hlb hra
  omega

/-- References of size above 1 with one stride end at one place of one axis. -/
theorem Valid.ends_eq (ha : a.Valid m) (hb : b.Valid m) (h1a : 1 < a.size m)
    (h1b : 1 < b.size m) (h : a.stride m = b.stride m) :
    a.name = b.name ∧ a.nextPreSize m = b.nextPreSize m := by
  have hplace : a.place m = b.place m := ha.place_eq hb ha.behind_le_stride (ha.stride_lt h1a)
    (h ▸ hb.behind_le_stride) (h ▸ hb.stride_lt h1b)
  have hname := ha.name_eq_of_place hb hplace
  have hfull : a.fullSize m = b.fullSize m := fullSize_congr m hname
  rw [stride, stride, hplace, hfull] at h
  exact ⟨hname, (Nat.div_eq_iff_eq_of_dvd_dvd (Nat.ne_of_gt (b.fullSize_pos m))
    (hfull ▸ ha.nextPreSize_dvd) hb.nextPreSize_dvd).1
    (Nat.eq_of_mul_eq_mul_left (m.behind_pos _) h)⟩

/-- What has its first coordinate above 0 where the coordinates along a reference begin anew
ends where the reference begins. -/
theorem Valid.canMerge_of_stride_eq (ha : a.Valid m) (hb : b.Valid m) (h1a : 1 < a.size m)
    (hpre : 1 < b.preSize) (h : a.stride m = b.stride m * b.size m) :
    a.canMerge b m = true := by
  rw [hb.stride_mul_size] at h
  have hle : m.behind (b.place m) ≤ a.stride m := by
    rw [h]
    exact Nat.le_mul_of_pos_right _
      (Nat.div_pos (Nat.le_of_dvd (b.fullSize_pos m) hb.preSize_dvd) hb.preSize_pos)
  have hlt : a.stride m < b.fullSize m * m.behind (b.place m) := by
    rw [h, Nat.mul_comm (b.fullSize m)]
    exact Nat.mul_lt_mul_of_pos_left (Nat.div_lt_self (b.fullSize_pos m) hpre) (m.behind_pos _)
  have hplace := ha.place_eq hb ha.behind_le_stride (ha.stride_lt h1a) hle hlt
  have hname := ha.name_eq_of_place hb hplace
  have hfull : a.fullSize m = b.fullSize m := fullSize_congr m hname
  rw [stride, hplace, hfull] at h
  have hends : a.nextPreSize m = b.preSize :=
    (Nat.div_eq_iff_eq_of_dvd_dvd (Nat.ne_of_gt (b.fullSize_pos m))
      (hfull ▸ ha.nextPreSize_dvd) hb.preSize_dvd).1
      (Nat.eq_of_mul_eq_mul_left (m.behind_pos _) h)
  simp [canMerge, hname, hends]

/-- All coordinates along the second reference are run through, maybe several times, before the
one along the first reference changes. -/
def Above (m : Mesh) (a b : AxisRef) : Prop := b.stride m * b.size m ∣ a.stride m

theorem Valid.above_of_dvd (hb : b.Valid m) (hn : a.name = b.name)
    (h : a.nextPreSize m ∣ b.preSize) : Above m a b := by
  have hplace : a.place m = b.place m := by simp [place, hn]
  rw [Above, hb.stride_mul_size, stride, hplace, fullSize_congr m hn]
  refine Nat.mul_dvd_mul_left _ ?_
  have hdvd := hb.preSize_dvd
  obtain ⟨n, hpre⟩ := h
  rw [hpre] at hdvd ⊢
  rw [← Nat.div_div_eq_div_mul]
  exact Nat.div_dvd_of_dvd (Nat.dvd_div_of_mul_dvd hdvd)

theorem Valid.above_of_place_lt (hb : b.Valid m) (h : a.place m < b.place m) :
    Above m a b := by
  obtain ⟨axis, haxis, -, hsize⟩ := hb.getElem?_place
  exact (hb.cycle_dvd.trans (hsize ▸ Mesh.size_mul_behind_dvd haxis h)).mul_right _

/-- The references to different axes are one above the other. -/
theorem Valid.above_of_name_ne (ha : a.Valid m) (hb : b.Valid m) (h : a.name ≠ b.name) :
    Above m a b ∨ Above m b a := by
  rcases Nat.lt_trichotomy (a.place m) (b.place m) with hlt | heq | hlt
  · exact .inl (hb.above_of_place_lt hlt)
  · exact absurd (ha.name_eq_of_place hb heq) h
  · exact .inr (ha.above_of_place_lt hlt)

end AxisRef

namespace AxisList

variable {m : Mesh} {a : AxisRef} {l r : List AxisRef}

/-- Of any two references one is above the other. -/
def Graded (m : Mesh) (l : List AxisRef) : Prop :=
  l.Pairwise fun a b => AxisRef.Above m a b ∨ AxisRef.Above m b a

/-- Disjoint references between the bounds of ladders are graded. -/
theorem graded_of_ladder {bounds : String → List Nat} (hl : AllValid m l) (ha : Apart m l)
    (hw : Within m bounds l) (hb : ∀ name, Ladder (bounds name)) : Graded m l := by
  refine (ha.pairwise hl).imp_of_mem fun {a b} hmema hmemb hover => ?_
  have hva := hl a hmema
  have hvb := hl b hmemb
  by_cases hn : a.name = b.name
  · have hba := hw a hmema
    have hbb := hw b hmemb
    rw [← hn] at hbb
    simp only [AxisRef.overlaps, hn, true_and, decide_eq_true_eq, not_and_or, Nat.not_lt] at hover
    rcases hover with hle | hle
    · exact .inr (hva.above_of_dvd hn.symm ((hb _).dvd _ hbb.2 _ hba.1 hle))
    · exact .inl (hvb.above_of_dvd hn ((hb _).dvd _ hba.2 _ hbb.1 hle))
  · exact hva.above_of_name_ne hvb hn

/-- Disjoint references to axes that are not opaque are graded. -/
theorem graded_of_opaqueAxes_eq_nil (hl : AllValid m l) (ha : Apart m l)
    (ho : opaqueAxes m l = []) : Graded m l :=
  graded_of_ladder hl ha (within_boundaries l) fun _ =>
    not_mem_opaqueAxes_iff.1 (ho ▸ List.not_mem_nil)

end AxisList
end MeshSharding
