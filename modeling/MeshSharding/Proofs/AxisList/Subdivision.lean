import Mathlib.Algebra.Divisibility.Basic
import Mathlib.Algebra.Group.Nat.Defs
import Mathlib.Data.List.Pairwise
import MeshSharding.AxisList.Subdivision
import MeshSharding.Proofs.AxisList.Core

/-! The common subdivision of valid lists. The atoms of a list merge to its core. -/
namespace MeshSharding
namespace Sorted

theorem pairwise_insert {l : List Nat} (a : Nat) (h : l.Pairwise (· < ·)) :
    (insert a l).Pairwise (· < ·) := by
  induction l with
  | nil => simp [insert]
  | cons b rest ih =>
    rw [List.pairwise_cons] at h
    unfold insert
    split
    · simp only [List.pairwise_cons, List.mem_cons]
      grind
    · split
      · exact List.pairwise_cons.2 h
      · refine List.pairwise_cons.2 ⟨fun c hc => ?_, ih h.2⟩
        rcases (mem_insert a c rest).1 hc with rfl | hc
        · omega
        · exact h.1 c hc

theorem pairwise_ofList (l : List Nat) : (ofList l).Pairwise (· < ·) := by
  induction l with
  | nil => exact List.Pairwise.nil
  | cons a rest ih => exact pairwise_insert a ih

end Sorted

namespace AxisList

variable {m : Mesh}

section steps

theorem forall_mem_steps_iff {R : Nat → Nat → Prop} {l : List Nat} :
    (∀ s ∈ steps l, R s.1 s.2) ↔ l.IsChain R := by
  induction l with
  | nil => simp [steps]
  | cons a rest ih =>
    cases rest with
    | nil => simp [steps]
    | cons b rest =>
      have hs : steps (a :: b :: rest) = (a, b) :: steps (b :: rest) := rfl
      rw [hs, List.isChain_cons_cons, ← ih]
      simp

theorem steps_append (l r : List Nat) (c : Nat) :
    steps (l ++ c :: r) = steps (l ++ [c]) ++ steps (c :: r) := by
  induction l with
  | nil => simp [steps]
  | cons a rest ih => cases rest <;> simp_all [steps]

theorem mem_of_mem_steps {l : List Nat} {s : Nat × Nat} (h : s ∈ steps l) :
    s.1 ∈ l ∧ s.2 ∈ l := by
  have := List.of_mem_zip (show (s.1, s.2) ∈ l.zip l.tail from h)
  exact ⟨this.1, List.mem_of_mem_tail this.2⟩

/-- The boundaries from `p` to `q`. -/
def span (bounds : List Nat) (p q : Nat) : List Nat := bounds.filter fun c => p ≤ c ∧ c ≤ q

theorem span_append_cons {l r : List Nat} {c : Nat}
    (h : (l ++ c :: r).Pairwise (· < ·)) (p q : Nat) (hp : p ≤ c) (hq : c ≤ q) :
    span (l ++ c :: r) p q = l.filter (p ≤ ·) ++ c :: r.filter (· ≤ q) := by
  rw [List.pairwise_append, List.pairwise_cons] at h
  have hl : l.filter (fun x => p ≤ x ∧ x ≤ q) = l.filter (p ≤ ·) :=
    List.filter_congr fun x hx => by have := h.2.2 x hx c (by simp); grind
  have hr : r.filter (fun x => p ≤ x ∧ x ≤ q) = r.filter (· ≤ q) :=
    List.filter_congr fun x hx => by have := h.2.1.1 x hx; grind
  rw [span, List.filter_append, List.filter_cons_of_pos (by simp [hp, hq]), hl, hr]

/-- A boundary in between cuts the steps in two. -/
theorem steps_span {bounds : List Nat} (h : bounds.Pairwise (· < ·)) {p q c : Nat}
    (hc : c ∈ bounds) (hp : p ≤ c) (hq : c ≤ q) :
    steps (span bounds p q) = steps (span bounds p c) ++ steps (span bounds c q) := by
  obtain ⟨l, r, rfl⟩ := List.append_of_mem hc
  have hbelow : l.filter (c ≤ ·) = [] := by
    rw [List.pairwise_append] at h
    exact List.filter_eq_nil_iff.2 fun x hx => by have := h.2.2 x hx c (by simp); simp; omega
  have habove : r.filter (· ≤ c) = [] := by
    rw [List.pairwise_append, List.pairwise_cons] at h
    exact List.filter_eq_nil_iff.2 fun x hx => by have := h.2.1.1 x hx; simp; omega
  rw [span_append_cons h p q hp hq, span_append_cons h p c hp (Nat.le_refl c),
    span_append_cons h c q (Nat.le_refl c) hq, hbelow, habove, steps_append]
  rfl

theorem steps_span_self {bounds : List Nat} (h : bounds.Pairwise (· < ·)) (c : Nat) :
    steps (span bounds c c) = [] := by
  by_cases hc : c ∈ bounds
  · have := steps_span h hc (Nat.le_refl c) (Nat.le_refl c)
    simpa using congrArg List.length this
  · have : span bounds c c = [] := List.filter_eq_nil_iff.2 fun x hx => by
      have : x ≠ c := fun e => hc (e ▸ hx)
      simp; omega
    rw [this]; rfl

theorem span_eq {bounds : List Nat} (h : bounds.Pairwise (· < ·)) {p q : Nat}
    (hp : p ∈ bounds) (hq : q ∈ bounds) (hlt : p < q) :
    ∃ mid, span bounds p q = p :: (mid ++ [q]) := by
  obtain ⟨l, r, rfl⟩ := List.append_of_mem hp
  rw [span_append_cons h p q (Nat.le_refl p) (Nat.le_of_lt hlt)]
  rw [List.pairwise_append, List.pairwise_cons] at h
  have hl : l.filter (p ≤ ·) = [] :=
    List.filter_eq_nil_iff.2 fun x hx => by have := h.2.2 x hx p (by simp); simp; omega
  have hqr : q ∈ r := by
    rcases List.mem_append.1 hq with hx | hx
    · have := h.2.2 q hx p (by simp); omega
    · rcases List.mem_cons.1 hx with hx | hx
      · omega
      · exact hx
  obtain ⟨mid, rest, rfl⟩ := List.append_of_mem hqr
  have hs := h.2.1.2
  rw [List.pairwise_append, List.pairwise_cons] at hs
  refine ⟨mid, ?_⟩
  have hmid : mid.filter (· ≤ q) = mid :=
    List.filter_eq_self.2 fun x hx => by have := hs.2.2 x hx q (by simp); simp; omega
  have hrest : rest.filter (· ≤ q) = [] :=
    List.filter_eq_nil_iff.2 fun x hx => by have := hs.2.1.1 x hx; simp; omega
  simp [hl, hmid, hrest]

end steps

section cut

/-- The bounds increase, and each divides all later ones. -/
structure Ladder (bounds : List Nat) : Prop where
  sorted : bounds.Pairwise (· < ·)
  dvd : ∀ x ∈ bounds, ∀ y ∈ bounds, x ≤ y → x ∣ y

theorem Ladder.sublist {l r : List Nat} (h : Ladder r) (hs : l.Sublist r) : Ladder l :=
  ⟨h.sorted.sublist hs, fun x hx y hy => h.dvd x (hs.subset hx) y (hs.subset hy)⟩

/-- The boundaries of an axis that is not opaque divide one another. -/
theorem ladder_of_not_isOpaque {bounds : List Nat} (hs : bounds.Pairwise (· < ·))
    (h : isOpaque bounds = false) : Ladder bounds := by
  have hsteps : ∀ s ∈ steps bounds, s.1 ∣ s.2 := by
    intro s hmem
    have := List.any_eq_false.1 h s hmem
    exact Nat.dvd_of_mod_eq_zero (by simpa using this)
  have hdvd : bounds.Pairwise (· ∣ ·) :=
    List.isChain_iff_pairwise.1 (forall_mem_steps_iff.1 hsteps)
  refine ⟨hs, fun x hx y hy => ?_⟩
  have hforth : bounds.Pairwise fun x y => x ≤ y → x ∣ y :=
    List.Pairwise.imp (fun {_ _} hxy => fun _ => hxy) hdvd
  have hback : bounds.Pairwise (flip fun x y => x ≤ y → x ∣ y) :=
    hs.imp fun {_ _} hlt hle => absurd hlt (Nat.not_lt.2 hle)
  exact hforth.forall_of_forall_of_flip (fun z _ _ => Nat.dvd_refl z) hback hx hy

theorem cutAt_eq (bounds : List Nat) (a : AxisRef) : cutAt m bounds a =
    (steps (span bounds a.preSize (a.nextPreSize m))).map fun s =>
      .ofWindow a.name s.1 (s.2 / s.1) (a.fullSize m) := rfl

theorem cutAt_eq_nil {bounds : List Nat} (h : bounds.Pairwise (· < ·)) {a : AxisRef}
    (hs : a.size m = 1) : cutAt m bounds a = [] := by
  have hn : a.nextPreSize m = a.preSize := by simp [AxisRef.nextPreSize, hs]
  rw [cutAt_eq, hn, steps_span_self h]
  rfl

/-- Cutting undoes merging at a boundary. -/
theorem cutAt_merge {bounds : List Nat} (h : bounds.Pairwise (· < ·)) {a b : AxisRef}
    (ha : a.Valid m) (hb : b.Valid m) (hm : a.canMerge b m = true)
    (hmem : a.nextPreSize m ∈ bounds) :
    cutAt m bounds (a.merge b m) = cutAt m bounds a ++ cutAt m bounds b := by
  have hle := ha.preSize_le_nextPreSize
  have hnext := AxisRef.merge_nextPreSize hm
  rw [AxisRef.canMerge_iff] at hm
  have hle' : a.nextPreSize m ≤ b.nextPreSize m := hm.2 ▸ hb.preSize_le_nextPreSize
  rw [cutAt_eq, cutAt_eq, cutAt_eq, hnext, AxisRef.merge_preSize, AxisRef.merge_name,
    AxisRef.merge_fullSize, steps_span h hmem hle hle', List.map_append, ← hm.1, ← hm.2,
    AxisRef.fullSize_congr m hm.1]

/-- The windows between the bounds of a ladder merge to one window. -/
theorem mergeAdjacent_windows (a : AxisRef) (c q : Nat) (mid : List Nat)
    (h : Ladder (c :: (mid ++ [q]))) (hc : 0 < c) :
    mergeAdjacent m ((steps (c :: (mid ++ [q]))).map fun s =>
      .ofWindow a.name s.1 (s.2 / s.1) (a.fullSize m))
      = [.ofWindow a.name c (q / c) (a.fullSize m)] := by
  induction mid generalizing c with
  | nil => simp [steps, push]
  | cons d mid ih =>
    have hcd : c ∣ d := h.dvd c (by simp) d (by simp) <| by
      have := (List.pairwise_cons.1 h.sorted).1 d (by simp); omega
    have hdq : d ∣ q := h.dvd d (by simp) q (by simp) <| by
      have := (List.pairwise_cons.1 (List.pairwise_cons.1 h.sorted).2).1 q (by simp); omega
    have hd : 0 < d := by
      have := (List.pairwise_cons.1 h.sorted).1 d (by simp); omega
    have hsteps : steps (c :: (d :: mid ++ [q])) = (c, d) :: steps (d :: (mid ++ [q])) := rfl
    rw [hsteps, List.map_cons, mergeAdjacent_cons,
      ih d (h.sublist (List.sublist_cons_self c _)) hd]
    have hnext := AxisRef.ofWindow_nextPreSize a m c (d / c)
    rw [Nat.mul_div_cancel' hcd] at hnext
    have hmerge : (AxisRef.ofWindow a.name c (d / c) (a.fullSize m)).canMerge
        (.ofWindow a.name d (q / d) (a.fullSize m)) m = true := by
      simp [AxisRef.canMerge, hnext]
    have hfull : (AxisRef.ofWindow a.name c (d / c) (a.fullSize m)).fullSize m
        = a.fullSize m := AxisRef.fullSize_congr m (by simp)
    rw [push_cons_of_canMerge hmerge, AxisRef.merge, AxisRef.ofWindow_size,
      AxisRef.ofWindow_size, AxisRef.ofWindow_name, AxisRef.ofWindow_preSize, hfull,
      Nat.div_mul_div_comm hcd hdq, Nat.mul_comm c d, Nat.mul_div_mul_left q c hd]

/-- The atoms of a reference of size above 1 merge to it. -/
theorem mergeAdjacent_cutAt {bounds : List Nat} (h : Ladder bounds) {a : AxisRef}
    (ha : a.Valid m) (hs : 1 < a.size m) (hp : a.preSize ∈ bounds)
    (hq : a.nextPreSize m ∈ bounds) : mergeAdjacent m (cutAt m bounds a) = [a] := by
  obtain ⟨mid, hmid⟩ := span_eq h.sorted hp hq (ha.preSize_lt_nextPreSize hs)
  have hladder := h.sublist (l := a.preSize :: (mid ++ [a.nextPreSize m]))
    (hmid ▸ List.filter_sublist)
  have hsize : a.nextPreSize m / a.preSize = a.size m :=
    Nat.mul_div_cancel_left _ ha.preSize_pos
  rw [cutAt_eq, hmid, mergeAdjacent_windows a _ _ mid hladder ha.preSize_pos, hsize,
    ha.eq_ofWindow]

theorem mem_cutAt {bounds : List Nat} (h : Ladder bounds) {a x : AxisRef} (ha : a.Valid m)
    (hq : a.nextPreSize m ∈ bounds) (hx : x ∈ cutAt m bounds a) :
    x.Valid m ∧ 1 < x.size m ∧ x.name = a.name ∧ x.preSize ∈ bounds ∧
      x.nextPreSize m ∈ bounds := by
  rw [cutAt_eq] at hx
  obtain ⟨s, hs, rfl⟩ := List.mem_map.1 hx
  have hsub : (span bounds a.preSize (a.nextPreSize m)).Sublist bounds := List.filter_sublist
  have hlt : s.1 < s.2 := by
    have hchain := List.Pairwise.isChain (h.sorted.sublist hsub)
    exact forall_mem_steps_iff.2 hchain s hs
  obtain ⟨h1, h2⟩ := mem_of_mem_steps hs
  have hp1 : a.preSize ≤ s.1 := by
    have := (List.mem_filter.1 h1).2; simp at this; omega
  have hle2 : s.2 ≤ a.nextPreSize m := by
    have := (List.mem_filter.1 h2).2; simp at this; omega
  have hpos : 0 < s.1 := Nat.lt_of_lt_of_le ha.preSize_pos hp1
  have hdvd : s.1 ∣ s.2 := h.dvd _ (hsub.subset h1) _ (hsub.subset h2) (Nat.le_of_lt hlt)
  have hdvd' : s.2 ∣ a.fullSize m :=
    Nat.dvd_trans (h.dvd _ (hsub.subset h2) _ hq hle2) ha.nextPreSize_dvd
  have hsize : 1 < s.2 / s.1 := by
    obtain ⟨k, hk⟩ := hdvd
    rw [hk, Nat.mul_div_cancel_left _ hpos]
    by_contra hk1
    have : s.1 * k ≤ s.1 * 1 := Nat.mul_le_mul_left _ (by omega)
    omega
  have hmul : s.1 * (s.2 / s.1) = s.2 := Nat.mul_div_cancel' hdvd
  refine ⟨AxisRef.valid_ofWindow ha.known hpos hsize (by rwa [hmul]), ?_, by simp, ?_, ?_⟩
  · rwa [AxisRef.ofWindow_size]
  · simpa using hsub.subset h1
  · rw [AxisRef.ofWindow_nextPreSize, hmul]
    exact hsub.subset h2

end cut

section within

/-- The references begin and end at the given bounds of their axes. -/
def Within (m : Mesh) (bounds : String → List Nat) (l : List AxisRef) : Prop :=
  ∀ a ∈ l, a.preSize ∈ bounds a.name ∧ a.nextPreSize m ∈ bounds a.name

variable {bounds : String → List Nat}

theorem Within.subset {l r : List AxisRef} (h : Within m bounds r) (hs : l ⊆ r) :
    Within m bounds l := fun a ha => h a (hs ha)

theorem within_append {l r : List AxisRef} :
    Within m bounds (l ++ r) ↔ Within m bounds l ∧ Within m bounds r := by
  simp only [Within, List.mem_append]; grind

theorem Within.mergeAdjacent {l : List AxisRef} (h : Within m bounds l) :
    Within m bounds (mergeAdjacent m l) := by
  refine forall_mem_mergeAdjacent h fun a b ha hb hm => ?_
  have hnext := AxisRef.merge_nextPreSize hm
  rw [AxisRef.canMerge_iff] at hm
  rw [hnext, AxisRef.merge_name, AxisRef.merge_preSize]
  exact ⟨ha.1, hm.1 ▸ hb.2⟩

theorem Within.core {l : List AxisRef} (h : Within m bounds l) :
    Within m bounds (core m l) := (h.subset (trim_subset l)).mergeAdjacent

/-- Merging a list with one behind it hides no bounds of the first but those at which the
second begins. -/
theorem within_of_mergeAdjacent_append {l r : List AxisRef} (hl : Separated m l)
    (h : Within m bounds (mergeAdjacent m (l ++ r))) (hr : Within m bounds r) :
    Within m bounds l := by
  induction l with
  | nil => simp [Within]
  | cons a rest ih =>
    have hrest : Separated m rest := hl.tail
    rw [List.cons_append, mergeAdjacent_cons] at h
    have hr' := hr.mergeAdjacent
    have hboth : (a.preSize ∈ bounds a.name ∧ a.nextPreSize m ∈ bounds a.name) ∧
        Within m bounds (AxisList.mergeAdjacent m (rest ++ r)) := by
      cases hrr : AxisList.mergeAdjacent m (rest ++ r) with
      | nil => simpa [hrr, push, Within] using h
      | cons b tail =>
        rw [hrr] at h
        by_cases hm : a.canMerge b m = true
        · rw [push_cons_of_canMerge hm] at h
          have hcan := hm
          rw [AxisRef.canMerge_iff] at hcan
          cases rest with
          | cons x rest =>
            -- the reference behind `a` begins like `b`, so `a` would not be separated
            exfalso
            have hx := head_of_mergeAdjacent_cons hrr
            have := (List.isChain_cons_cons.1 hl).1
            simp [AxisRef.canMerge, ← hx, hcan] at this
          | nil =>
            simp only [List.nil_append] at hrr
            have hb := hr' b (by simp [hrr])
            have hab := h (a.merge b m) (by simp)
            rw [AxisRef.merge_name, AxisRef.merge_preSize] at hab
            refine ⟨⟨hab.1, ?_⟩, by rw [← hrr]; exact hr'⟩
            rw [hcan.1, hcan.2]
            exact hb.1
        · rw [push_cons_of_not hm] at h
          exact ⟨h a (by simp), h.subset (List.subset_cons_self ..)⟩
    intro x hx
    rcases List.mem_cons.1 hx with rfl | hx
    · exact hboth.1
    · exact ih hrest hboth.2 x hx

/-- Replacing every reference by a list with its core gives a list with that core. -/
theorem mergeAdjacent_flatMap {f : AxisRef → List AxisRef} {l : List AxisRef}
    (h : ∀ a ∈ l, mergeAdjacent m (f a) = mergeAdjacent m (trim m [a])) :
    mergeAdjacent m (l.flatMap f) = core m l := by
  induction l with
  | nil => rfl
  | cons a rest ih =>
    have hrest := ih fun x hx => h x (by simp [hx])
    rw [List.flatMap_cons, mergeAdjacent_append_congr (h a (by simp)) hrest, ← trim_append]
    rfl

/-- The atoms of a reference merge to its core. -/
theorem mergeAdjacent_cutAt_eq_trim {bounds : List Nat} (h : Ladder bounds) {a : AxisRef}
    (ha : a.Valid m) (hp : a.preSize ∈ bounds) (hq : a.nextPreSize m ∈ bounds) :
    mergeAdjacent m (cutAt m bounds a) = mergeAdjacent m (trim m [a]) := by
  by_cases hs : 1 < a.size m
  · rw [mergeAdjacent_cutAt h ha hs hp hq, trim_eq_self (by simpa using hs)]
    rfl
  · have hpos := ha.size_pos
    rw [cutAt_eq_nil h.sorted (by omega)]
    simp [trim, hs]

end within

section atoms

theorem mem_boundaries {all : List AxisRef} {name : String} {c : Nat} :
    c ∈ boundaries m all name ↔
      ∃ a ∈ all, a.name = name ∧ (c = a.preSize ∨ c = a.nextPreSize m) := by
  simp [boundaries]; grind

theorem sorted_boundaries (all : List AxisRef) (name : String) :
    (boundaries m all name).Pairwise (· < ·) := Sorted.pairwise_ofList _

theorem within_boundaries (all : List AxisRef) : Within m (boundaries m all) all :=
  fun a ha => ⟨mem_boundaries.2 ⟨a, ha, rfl, .inl rfl⟩, mem_boundaries.2 ⟨a, ha, rfl, .inr rfl⟩⟩

theorem boundaries_pos {all : List AxisRef} (h : AllValid m all) {name : String} {c : Nat}
    (hc : c ∈ boundaries m all name) : 0 < c := by
  obtain ⟨a, ha, _, rfl | rfl⟩ := mem_boundaries.1 hc
  · exact (h a ha).preSize_pos
  · exact Nat.mul_pos (h a ha).preSize_pos (h a ha).size_pos

theorem isUndefined_eq_false {all : List AxisRef} (h : AllValid m all) (name : String) :
    isUndefined (boundaries m all name) = false := by
  refine List.any_eq_false.2 fun s hs => ?_
  have := boundaries_pos h (mem_of_mem_steps hs).1
  simp; omega

theorem mem_opaqueAxes {all : List AxisRef} {name : String} :
    name ∈ opaqueAxes m all ↔
      (∃ a ∈ all, a.name = name) ∧ isOpaque (boundaries m all name) = true := by
  simp [opaqueAxes]

theorem ladder_of_subset {l r : List Nat} (hl : l.Pairwise (· < ·)) (hr : Ladder r)
    (hs : l ⊆ r) : Ladder l :=
  ⟨hl, fun x hx y hy => hr.dvd x (hs hx) y (hs hy)⟩

/-- An axis is opaque exactly if its boundaries do not divide one another. -/
theorem not_mem_opaqueAxes_iff {all : List AxisRef} {name : String} :
    name ∉ opaqueAxes m all ↔ Ladder (boundaries m all name) := by
  have hsorted := sorted_boundaries (m := m) all name
  constructor
  · intro h
    refine ladder_of_not_isOpaque hsorted ?_
    by_contra hop
    have hop : isOpaque (boundaries m all name) = true := by simpa using hop
    obtain ⟨s, hs, _⟩ := List.any_eq_true.1 hop
    obtain ⟨a, ha, hn, _⟩ := mem_boundaries.1 (mem_of_mem_steps hs).1
    exact h (mem_opaqueAxes.2 ⟨⟨a, ha, hn⟩, hop⟩)
  · intro h hmem
    obtain ⟨s, hs, hdvd⟩ := List.any_eq_true.1 (mem_opaqueAxes.1 hmem).2
    obtain ⟨h1, h2⟩ := mem_of_mem_steps hs
    have hlt : s.1 < s.2 := forall_mem_steps_iff.2 (List.Pairwise.isChain hsorted) s hs
    have := h.dvd _ h1 _ h2 (Nat.le_of_lt hlt)
    rw [Nat.dvd_iff_mod_eq_zero] at this
    simp [this] at hdvd

/-- An axis of size 1 has one boundary only, so it is not opaque. -/
theorem one_lt_size_of_mem_opaqueAxes {all : List AxisRef} (h : AllValid m all) {a : AxisRef}
    (ha : a.Valid m) (hn : a.name ∈ opaqueAxes m all) : 1 < a.size m := by
  have hpos := ha.size_pos
  by_contra hs
  have hfull := ha.size_eq_one_iff.1 (by omega)
  have hone : ∀ c ∈ boundaries m all a.name, c = 1 := by
    intro c hc
    obtain ⟨b, hb, hname, hcb⟩ := mem_boundaries.1 hc
    have hsize : b.size m = 1 := by
      rw [(h b hb).size_eq_one_iff, AxisRef.fullSize_congr m hname]; exact hfull
    have hpre : b.preSize = 1 := by
      rw [(h b hb).eq_full_of_size_eq_one hsize]; rfl
    simpa [AxisRef.nextPreSize, hsize, hpre] using hcb
  obtain ⟨s, hs, hdvd⟩ := List.any_eq_true.1 (mem_opaqueAxes.1 hn).2
  obtain ⟨h1, h2⟩ := mem_of_mem_steps hs
  simp [hone _ h1, hone _ h2] at hdvd

/-- The references of a list cut into atoms. -/
def atoms (m : Mesh) (all l : List AxisRef) : List AxisRef :=
  l.flatMap (atomsOf m all (opaqueAxes m all))

/-- The references of valid lists are cut without a fault. -/
theorem atomize_eq {lists : List (List AxisRef)} (h : AllValid m lists.flatten) :
    atomize m lists = .ok ⟨lists.map (atoms m lists.flatten), opaqueAxes m lists.flatten⟩ := by
  have : lists.flatten.any (fun a => isUndefined (boundaries m lists.flatten a.name)) = false :=
    List.any_eq_false.2 fun a _ => by simp [isUndefined_eq_false h]
  simp only [atomize, this, Bool.false_eq_true, if_false]
  rfl

variable {all l : List AxisRef}

theorem mem_atoms (h : AllValid m all) (hl : l ⊆ all) {x : AxisRef}
    (hx : x ∈ atoms m all l) : x.Valid m ∧ 1 < x.size m ∧
      x.preSize ∈ boundaries m all x.name ∧ x.nextPreSize m ∈ boundaries m all x.name ∧
      (x.name ∈ opaqueAxes m all → x ∈ l) := by
  obtain ⟨a, ha, hxa⟩ := List.mem_flatMap.1 hx
  have hb := within_boundaries (m := m) all a (hl ha)
  unfold atomsOf at hxa
  split at hxa
  · rename_i hn
    obtain rfl := List.mem_singleton.1 hxa
    exact ⟨h x (hl ha), one_lt_size_of_mem_opaqueAxes h (h x (hl ha)) hn, hb.1, hb.2, fun _ => ha⟩
  · rename_i hn
    obtain ⟨hv, hs, hname, hp, hq⟩ :=
      mem_cutAt (not_mem_opaqueAxes_iff.1 hn) (h a (hl ha)) hb.2 hxa
    rw [hname]
    exact ⟨hv, hs, hp, hq, fun hop => absurd hop hn⟩

theorem allValid_atoms (h : AllValid m all) (hl : l ⊆ all) : AllValid m (atoms m all l) :=
  fun _ hx => (mem_atoms h hl hx).1

/-- The atoms of a list merge to its core. -/
theorem mergeAdjacent_atoms (h : AllValid m all) (hl : AllValid m l)
    (hw : Within m (boundaries m all) l) : mergeAdjacent m (atoms m all l) = core m l := by
  refine mergeAdjacent_flatMap fun a ha => ?_
  unfold atomsOf
  split
  · rename_i hn
    have := one_lt_size_of_mem_opaqueAxes h (hl a ha) hn
    rw [trim_eq_self (by simpa using this)]
  · rename_i hn
    exact mergeAdjacent_cutAt_eq_trim (not_mem_opaqueAxes_iff.1 hn) (hl a ha) (hw a ha).1
      (hw a ha).2

theorem core_atoms (h : AllValid m all) (hl : l ⊆ all) :
    core m (atoms m all l) = core m l := by
  have hsize : ∀ x ∈ atoms m all l, 1 < x.size m := fun x hx => (mem_atoms h hl hx).2.1
  rw [core, trim_eq_self hsize,
    mergeAdjacent_atoms h (h.subset hl) ((within_boundaries all).subset hl)]

end atoms

end AxisList
end MeshSharding
