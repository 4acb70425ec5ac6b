import MeshSharding.AxisList

/-! Valid references of a mesh, and the parts of an axis that they cover. Two valid
references overlap exactly if they cover a common part. -/
namespace MeshSharding

/-- Every axis has size above 1. -/
def Mesh.NoUnitAxes (m : Mesh) : Prop := ∀ axis ∈ m.axes, 2 ≤ axis.size

namespace AxisRef

/-- The reference passes the check of the mesh. -/
def Valid (m : Mesh) (a : AxisRef) : Prop := a.validate m = .ok ()

/-- A valid reference is the whole axis, or a window of size above 1 that ends at a
divisor of the size of the axis and is not the whole axis. -/
theorem valid_iff {m : Mesh} {a : AxisRef} : a.Valid m ↔
    m.axisSize? a.name = some (a.fullSize m) ∧
      (a.window = none ∨ ∃ w, a.window = some w ∧ 0 < w.preSize ∧ 1 < w.size ∧
        w.preSize * w.size ∣ a.fullSize m ∧
        ¬ (w.preSize = 1 ∧ w.size = a.fullSize m)) := by
  unfold Valid validate
  cases hn : m.axisSize? a.name with
  | none => simp
  | some n =>
    have hf : a.fullSize m = n := by simp [fullSize, hn]
    have hpos := a.fullSize_pos m
    rw [hf] at hpos ⊢
    cases hw : a.window with
    | none => simp
    | some w =>
      simp only [Option.some.injEq, reduceCtorEq, false_or, exists_eq_left', true_and]
      have hle : w.preSize * w.size ∣ n → w.preSize * w.size ≤ n := Nat.le_of_dvd hpos
      simp only [Nat.dvd_iff_mod_eq_zero] at hle ⊢
      split <;> grind

theorem eq_full_of_window_none {a : AxisRef} (h : a.window = none) : a = full a.name := by
  cases a; simp_all [full]

namespace Valid

variable {m : Mesh} {a b : AxisRef}

theorem known (h : a.Valid m) : m.axisSize? a.name = some (a.fullSize m) := (valid_iff.1 h).1

theorem preSize_pos (h : a.Valid m) : 0 < a.preSize := by
  rcases (valid_iff.1 h).2 with hw | ⟨w, hw, hp, _⟩ <;> simp_all [preSize]

theorem size_pos (h : a.Valid m) : 0 < a.size m := by
  rcases (valid_iff.1 h).2 with hw | ⟨w, hw, _, hs, _⟩
  · simpa [size, hw] using a.fullSize_pos m
  · simp only [size, hw]; omega

theorem nextPreSize_dvd (h : a.Valid m) : a.nextPreSize m ∣ a.fullSize m := by
  rcases (valid_iff.1 h).2 with hw | ⟨w, hw, _, _, hd, _⟩
  · simp [nextPreSize, preSize, size, hw]
  · simpa [nextPreSize, preSize, size, hw] using hd

theorem preSize_le_nextPreSize (h : a.Valid m) : a.preSize ≤ a.nextPreSize m :=
  Nat.le_mul_of_pos_right _ h.size_pos

theorem preSize_lt_nextPreSize (h : a.Valid m) (hs : 1 < a.size m) :
    a.preSize < a.nextPreSize m := by
  have := Nat.mul_lt_mul_of_pos_left hs h.preSize_pos
  simpa [nextPreSize] using this

/-- A valid reference is written in the one form that its window has. -/
theorem eq_ofWindow (h : a.Valid m) :
    ofWindow a.name a.preSize (a.size m) (a.fullSize m) = a := by
  rcases (valid_iff.1 h).2 with hw | ⟨w, hw, _, _, _, hn⟩
  · have ha := eq_full_of_window_none hw
    rw [ha]; simp [ofWindow, full, preSize, size]
  · cases a; simp_all [ofWindow, preSize, size, sub]

theorem eq_full_of_size_eq_one (h : a.Valid m) (hs : a.size m = 1) : a = full a.name := by
  rcases (valid_iff.1 h).2 with hw | ⟨w, hw, _, h1, _⟩
  · exact eq_full_of_window_none hw
  · simp only [size, hw] at hs; omega

/-- An axis of size 1 has no reference of another size. -/
theorem size_eq_one_iff (h : a.Valid m) : a.size m = 1 ↔ a.fullSize m = 1 := by
  constructor
  · intro hs
    have ha := h.eq_full_of_size_eq_one hs
    rw [ha] at hs ⊢
    exact hs
  · intro hf
    have hd := h.nextPreSize_dvd
    rw [hf, Nat.dvd_one] at hd
    exact Nat.eq_one_of_mul_eq_one_left hd

theorem exists_axis (h : a.Valid m) :
    ∃ axis ∈ m.axes, axis.name = a.name ∧ axis.size = a.fullSize m := by
  obtain ⟨axis, hfind, hsize⟩ := Option.map_eq_some_iff.1 h.known
  exact ⟨axis, List.mem_of_find?_eq_some hfind, by simpa using List.find?_some hfind, hsize⟩

theorem one_lt_size_of_two_le (h : a.Valid m) (hfull : 2 ≤ a.fullSize m) : 1 < a.size m := by
  have hpos := h.size_pos
  have hone := h.size_eq_one_iff
  omega

/-- On a mesh without axes of size 1 no reference has size 1. -/
theorem one_lt_size (hm : m.NoUnitAxes) (h : a.Valid m) : 1 < a.size m := by
  obtain ⟨axis, hmem, -, hsize⟩ := h.exists_axis
  exact h.one_lt_size_of_two_le (hsize ▸ hm axis hmem)

end Valid

theorem valid_ofWindow {m : Mesh} {a : AxisRef} {p s : Nat}
    (hn : m.axisSize? a.name = some (a.fullSize m)) (hp : 0 < p) (hs : 1 < s)
    (hd : p * s ∣ a.fullSize m) : (ofWindow a.name p s (a.fullSize m)).Valid m := by
  have hf : (ofWindow a.name p s (a.fullSize m)).fullSize m = a.fullSize m :=
    fullSize_congr m (by simp)
  refine valid_iff.2 ⟨by simpa [hf] using hn, ?_⟩
  rw [hf]
  unfold ofWindow
  split
  · exact .inl rfl
  · exact .inr ⟨⟨p, s⟩, rfl, hp, hs, hd, by assumption⟩

theorem canMerge_iff {m : Mesh} {a b : AxisRef} :
    a.canMerge b m = true ↔ a.name = b.name ∧ a.nextPreSize m = b.preSize := by
  simp [canMerge]

/-- Merging two valid references whose windows meet gives a valid one. -/
theorem Valid.merge {m : Mesh} {a b : AxisRef} (ha : a.Valid m) (hb : b.Valid m)
    (h : a.canMerge b m = true) : (a.merge b m).Valid m := by
  rw [canMerge_iff] at h
  by_cases hs : 1 < a.size m * b.size m
  · refine valid_ofWindow ha.known ha.preSize_pos hs ?_
    have hd := hb.nextPreSize_dvd
    rw [← fullSize_congr m h.1] at hd
    rw [← Nat.mul_assoc]
    simpa [nextPreSize, ← h.2] using hd
  · have hpa := ha.size_pos
    have hpb := hb.size_pos
    have h1 : a.size m * b.size m = 1 := by
      have := Nat.mul_pos hpa hpb
      omega
    have h2 := Nat.eq_one_of_mul_eq_one_right h1
    have he : a.merge b m = a := by
      rw [AxisRef.merge, h1, ← h2]
      exact ha.eq_ofWindow
    rwa [he]

section merge

variable (a b : AxisRef) (m : Mesh)

@[simp] theorem merge_name : (a.merge b m).name = a.name := by simp [AxisRef.merge]

@[simp] theorem merge_preSize : (a.merge b m).preSize = a.preSize := by simp [AxisRef.merge]

@[simp] theorem merge_size : (a.merge b m).size m = a.size m * b.size m := by
  simp [AxisRef.merge, ofWindow_size]

@[simp] theorem merge_fullSize : (a.merge b m).fullSize m = a.fullSize m :=
  fullSize_congr m (merge_name a b m)

theorem merge_nextPreSize {a b : AxisRef} {m : Mesh} (h : a.canMerge b m = true) :
    (a.merge b m).nextPreSize m = b.nextPreSize m := by
  rw [canMerge_iff] at h
  simp [nextPreSize, ← h.2, ← Nat.mul_assoc]

end merge

/-- The part of the axis `name` behind the place `c` lies in the window. -/
def covers (m : Mesh) (name : String) (c : Nat) (a : AxisRef) : Bool :=
  a.name = name ∧ a.preSize ≤ c ∧ c < a.nextPreSize m

/-- Of an axis of size 1 there is nothing to cover. -/
theorem covers_eq_false {m : Mesh} {a : AxisRef} (hs : a.size m = 1)
    (name : String) (c : Nat) : a.covers m name c = false := by
  simp only [covers, nextPreSize, hs, Nat.mul_one, decide_eq_false_iff_not]
  omega

theorem overlaps_iff {m : Mesh} {a b : AxisRef} (ha : a.Valid m) (hb : b.Valid m) :
    a.overlaps b m = true ↔ ∃ name c, a.covers m name c = true ∧ b.covers m name c = true := by
  simp only [overlaps, covers, decide_eq_true_eq]
  constructor
  · rintro ⟨hn, h1, h2⟩
    have hab : a.size m = 1 ↔ b.size m = 1 := by
      rw [ha.size_eq_one_iff, hb.size_eq_one_iff, fullSize_congr m hn]
    have hpa := ha.size_pos
    have hpb := hb.size_pos
    by_cases hs : a.size m = 1
    · -- the axis has size 1, so both references begin and end at 1
      have hfa := congrArg preSize (ha.eq_full_of_size_eq_one hs)
      have hfb := congrArg preSize (hb.eq_full_of_size_eq_one (hab.1 hs))
      simp only [preSize_full] at hfa hfb
      simp [nextPreSize, hfa, hfb, hab.1 hs] at h1
    · have hla := ha.preSize_lt_nextPreSize (by omega)
      have hlb := hb.preSize_lt_nextPreSize (by omega)
      refine ⟨b.name, max a.preSize b.preSize, ⟨hn, ?_⟩, ⟨rfl, ?_⟩⟩ <;> omega
  · rintro ⟨name, c, ⟨rfl, h1, h2⟩, hn, h3, h4⟩
    exact ⟨hn.symm, by omega, by omega⟩

end AxisRef
end MeshSharding
