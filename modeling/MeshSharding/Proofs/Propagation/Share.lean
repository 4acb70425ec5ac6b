import MeshSharding.Propagation.Projection
import MeshSharding.Proofs.Sharding.Validity

/-! What a factor takes of the axes of its dimension. It takes a major part of them, and stops
only where its size is used up; a list that uses up its size is taken off any longer one. -/
namespace MeshSharding
namespace AxisRef

variable {m : Mesh} {a b : AxisRef}

/-- A valid reference is cut into two valid ones that merge to it. -/
theorem split_eq_some (ha : a.Valid m) {n : Nat} {x y : AxisRef}
    (h : a.split n m = some (x, y)) :
    x.Valid m ∧ y.Valid m ∧ x.canMerge y m = true ∧ x.merge y m = a ∧ x.size m = n := by
  unfold split at h
  split at h
  · cases h
  · rename_i hn
    simp only [not_or, Nat.not_le, Decidable.not_not] at hn
    obtain ⟨hn1, hlt, hmod⟩ := hn
    have hdvd : n * (a.size m / n) = a.size m := Nat.mul_div_cancel' (Nat.dvd_of_mod_eq_zero hmod)
    have hnext := ha.nextPreSize_dvd
    rw [nextPreSize, ← hdvd, ← Nat.mul_assoc] at hnext
    have hq : 1 < a.size m / n := by
      rw [← hdvd] at hlt
      exact Nat.lt_of_mul_lt_mul_left (a := n) (by simpa using hlt)
    cases h
    refine ⟨?_, ?_, ?_, ?_, ofWindow_size a m _ _⟩
    · exact valid_ofWindow ha.known ha.preSize_pos hn1 (Nat.dvd_trans (Nat.dvd_mul_right ..) hnext)
    · exact valid_ofWindow ha.known (Nat.mul_pos ha.preSize_pos (by omega)) hq hnext
    · simp [canMerge, ofWindow_nextPreSize]
    · have hf : (ofWindow a.name a.preSize n (a.fullSize m)).fullSize m = a.fullSize m :=
        fullSize_congr m (by simp)
      rw [AxisRef.merge, ofWindow_size, ofWindow_size, ofWindow_name, ofWindow_preSize, hf, hdvd]
      exact ha.eq_ofWindow

/-- Cutting undoes merging. -/
theorem split_merge (ha : a.Valid m) (hb : b.Valid m) (h : a.canMerge b m = true)
    (ha1 : 1 < a.size m) (hb1 : 1 < b.size m) :
    (a.merge b m).split (a.size m) m = some (a, b) := by
  have hlt : a.size m < a.size m * b.size m := by
    simpa using Nat.mul_lt_mul_of_pos_left hb1 (by omega : 0 < a.size m)
  have hdiv : a.size m * b.size m / a.size m = b.size m :=
    Nat.mul_div_cancel_left _ (by omega)
  rw [canMerge_iff] at h
  have hb' := hb.eq_ofWindow
  rw [← h.1, ← h.2, ← fullSize_congr m h.1, nextPreSize] at hb'
  rw [split, merge_size, merge_name, merge_preSize, merge_fullSize, hdiv, ha.eq_ofWindow, hb']
  simp; omega

end AxisRef

namespace AxisList

variable {m : Mesh}

theorem Separated.mergeAdjacent_eq {l : List AxisRef} (h : Separated m l) :
    mergeAdjacent m l = l := by
  induction l with
  | nil => rfl
  | cons a rest ih =>
    rw [mergeAdjacent_cons, ih h.tail]
    cases rest with
    | nil => rfl
    | cons b rest => exact push_cons_of_not (List.isChain_cons_cons.1 h).1 rest

theorem push_append_of_separated {a b : AxisRef} {l : List AxisRef}
    (h : Separated m (a :: b :: l)) (r : List AxisRef) :
    push m a (mergeAdjacent m (b :: l ++ r)) = a :: mergeAdjacent m (b :: l ++ r) := by
  cases hb : mergeAdjacent m (b :: l ++ r) with
  | nil => exact absurd (mergeAdjacent_eq_nil_iff.1 hb) (by simp)
  | cons c t =>
    obtain ⟨hname, hpre⟩ := head_of_mergeAdjacent_cons hb
    have hnot := (List.isChain_cons_cons.1 h).1
    exact push_cons_of_not (by simpa [AxisRef.canMerge, hname, hpre] using hnot) t

/-- Where two lists begin alike, both are separated behind the same references. -/
theorem separated_cons_congr {a : AxisRef} {l r : List AxisRef} (h : Separated m (a :: l))
    (hr : Separated m r)
    (hhead : ∀ x ∈ r.head?, ∃ y ∈ l.head?, a.canMerge x m = a.canMerge y m) :
    Separated m (a :: r) := by
  cases r with
  | nil => simp [Separated]
  | cons x r =>
    obtain ⟨y, hy, hxy⟩ := hhead x rfl
    cases l with
    | nil => cases hy
    | cons b l =>
      cases hy
      refine List.isChain_cons_cons.2 ⟨?_, hr⟩
      rw [hxy]
      exact (List.isChain_cons_cons.1 h).1

end AxisList

namespace Share

open AxisList

variable {m : Mesh} {n : Nat} {l r x o rest : List AxisRef} {share : Share}

/-- How a factor of which `n` is left takes axes. -/
inductive Takes (m : Mesh) : Nat → List AxisRef → Share → Prop
  | nil (n : Nat) : Takes m n [] ⟨[], [], []⟩
  /-- The size of the factor is used up. -/
  | full {n : Nat} {a : AxisRef} {l : List AxisRef} (hn : n ≤ 1) :
      Takes m n (a :: l) ⟨[], [], a :: l⟩
  | next {n : Nat} {a : AxisRef} {l x o rest : List AxisRef} (hn : 1 < n)
      (hd : a.size m ∣ n) (h : Takes m (n / a.size m) l ⟨x, o, rest⟩) :
      Takes m n (a :: l) ⟨a :: x, o, rest⟩
  /-- A major part of the axis uses up the size. -/
  | cut {n : Nat} {a b c : AxisRef} {l : List AxisRef} (hn : 1 < n) (hd : ¬ a.size m ∣ n)
      (h : a.split n m = some (b, c)) : Takes m n (a :: l) ⟨[b], [], c :: l⟩
  /-- The axis does not fit, and those behind it overflow. -/
  | misfit {n : Nat} {a : AxisRef} {l : List AxisRef} (hn : 1 < n) (hd : ¬ a.size m ∣ n)
      (h : ¬ n ∣ a.size m) : Takes m n (a :: l) ⟨[a], l, []⟩

theorem exists_takes (h : AllValid m l) (n : Nat) : ∃ share, Takes m n l share := by
  induction l generalizing n with
  | nil => exact ⟨_, .nil n⟩
  | cons a l ih =>
    rw [allValid_cons] at h
    by_cases hn : n ≤ 1
    · exact ⟨_, .full hn⟩
    · have hlt : 1 < n := by omega
      by_cases hd : a.size m ∣ n
      · obtain ⟨share, hshare⟩ := ih h.2 (n / a.size m)
        exact ⟨_, .next hlt hd hshare⟩
      · by_cases hs : n ∣ a.size m
        · have hle := Nat.le_of_dvd h.1.size_pos hs
          have hne : n ≠ a.size m := fun e => hd (e ▸ Nat.dvd_refl n)
          have hmod := Nat.mod_eq_zero_of_dvd hs
          obtain ⟨parts, hparts⟩ : ∃ parts, a.split n m = some parts := by
            rw [AxisRef.split, if_neg (by omega)]
            exact ⟨_, rfl⟩
          exact ⟨_, .cut hlt hd hparts⟩
        · exact ⟨_, .misfit hlt hd hs⟩

theorem take_eq_ok_iff (hl : AllValid m l) :
    take m n l = .ok share ↔ Takes m n l share := by
  have hforth : ∀ {share}, Takes m n l share → take m n l = .ok share := by
    intro share h
    induction h with
    | nil => rfl
    | full hn => rw [take, if_pos hn]
    | next hn hd h ih =>
      rw [allValid_cons] at hl
      have hmod := Nat.mod_eq_zero_of_dvd hd
      rw [take, if_neg (by omega), if_neg (Nat.ne_of_gt hl.1.size_pos), if_pos hmod, ih hl.2]
      rfl
    | @cut n a _ _ _ hn hd h =>
      rw [allValid_cons] at hl
      obtain ⟨-, -, -, hmerge, hsize⟩ := AxisRef.split_eq_some hl.1 h
      have hmod : ¬ n % a.size m = 0 := fun e => hd (Nat.dvd_of_mod_eq_zero e)
      have hsmod : a.size m % n = 0 := by
        rw [← hmerge, AxisRef.merge_size, hsize, Nat.mul_mod_right]
      rw [take, if_neg (by omega), if_neg (Nat.ne_of_gt hl.1.size_pos), if_neg hmod,
        if_pos hsmod, h]
    | @misfit n a _ hn hd h =>
      rw [allValid_cons] at hl
      have hmod : ¬ n % a.size m = 0 := fun e => hd (Nat.dvd_of_mod_eq_zero e)
      have hsmod : ¬ a.size m % n = 0 := fun e => h (Nat.dvd_of_mod_eq_zero e)
      rw [take, if_neg (by omega), if_neg (Nat.ne_of_gt hl.1.size_pos), if_neg hmod,
        if_neg hsmod]
  refine ⟨fun h => ?_, hforth⟩
  obtain ⟨share', h'⟩ := exists_takes hl n
  cases (hforth h').symm.trans h
  exact h'

namespace Takes

/-- The shares make up the list. -/
theorem joined (h : Takes m n l share) (hl : AllValid m l) :
    mergeAdjacent m (share.axes ++ share.overflow ++ share.rest) = mergeAdjacent m l ∧
      AllValid m (share.axes ++ share.overflow ++ share.rest) := by
  induction h with
  | nil => exact ⟨rfl, hl⟩
  | full hn => exact ⟨rfl, hl⟩
  | next hn hd h ih =>
    rw [allValid_cons] at hl
    obtain ⟨hmerge, hv⟩ := ih hl.2
    refine ⟨?_, allValid_cons.2 ⟨hl.1, hv⟩⟩
    simp only [List.cons_append, mergeAdjacent_cons, hmerge]
  | cut hn hd h =>
    rw [allValid_cons] at hl
    obtain ⟨hb, hc, hm, hmerge, -⟩ := AxisRef.split_eq_some hl.1 h
    refine ⟨?_, allValid_cons.2 ⟨hb, allValid_cons.2 ⟨hc, hl.2⟩⟩⟩
    simp only [List.cons_append, List.nil_append, mergeAdjacent_cons]
    rw [push_push hm, hmerge]
  | misfit hn hd h =>
    refine ⟨?_, ?_⟩ <;> simp only [List.append_nil, List.cons_append, List.nil_append]
    exact hl

/-- A factor leaves axes only if its size is used up. -/
theorem stops (h : Takes m n l share) (hl : AllValid m l) :
    share.rest = [] ∨ totalSize m share.axes = max n 1 ∧ share.overflow = [] := by
  induction h with
  | nil => exact .inl rfl
  | full hn => exact .inr ⟨by simp; omega, rfl⟩
  | @next n a _ _ _ _ hn hd h ih =>
    rw [allValid_cons] at hl
    refine (ih hl.2).imp_right fun hfull => ⟨?_, hfull.2⟩
    have hq : 0 < n / a.size m := Nat.div_pos (Nat.le_of_dvd (by omega) hd) hl.1.size_pos
    have hmul := Nat.mul_div_cancel' hd
    rw [totalSize_cons, hfull.1, Nat.max_eq_left hq, hmul]
    omega
  | cut hn hd h =>
    rw [allValid_cons] at hl
    obtain ⟨-, -, -, -, hsize⟩ := AxisRef.split_eq_some hl.1 h
    exact .inr ⟨by simp [hsize]; omega, rfl⟩
  | misfit => exact .inl rfl

theorem separated (h : Takes m n l share) (hl : AllValid m l) (hs : Separated m l) :
    Separated m share.axes ∧ Separated m share.rest ∧
      ∀ b ∈ share.axes.head?, ∃ c ∈ l.head?, ∀ a : AxisRef, a.canMerge b m = a.canMerge c m := by
  induction h with
  | nil => exact ⟨hs, hs, by simp⟩
  | full hn => exact ⟨by simp [Separated], hs, by simp⟩
  | @next _ a _ _ _ _ hn hd h ih =>
    rw [allValid_cons] at hl
    obtain ⟨haxes, hrest, hhead⟩ := ih hl.2 hs.tail
    refine ⟨separated_cons_congr hs haxes fun b hb => ?_, hrest, by simp⟩
    obtain ⟨c, hc, hbc⟩ := hhead b hb
    exact ⟨c, hc, hbc a⟩
  | @cut _ a b c l hn hd h =>
    rw [allValid_cons] at hl
    obtain ⟨-, -, hm, rfl, -⟩ := AxisRef.split_eq_some hl.1 h
    refine ⟨by simp [Separated], ?_, by simp⟩
    cases l with
    | nil => simp [Separated]
    | cons d l =>
      obtain ⟨hfirst, hrest⟩ := List.isChain_cons_cons.1 hs
      rw [AxisRef.canMerge_merge_left hm] at hfirst
      exact List.isChain_cons_cons.2 ⟨hfirst, hrest⟩
  | misfit => exact ⟨by simp [Separated], by simp [Separated], by simp⟩

/-- A factor that takes everything cuts nothing. -/
theorem eq_append (h : Takes m n l ⟨x, o, []⟩) : l = x ++ o := by
  generalize hs : (⟨x, o, []⟩ : Share) = share at h
  induction h generalizing x with
  | nil | misfit => cases hs; rfl
  | full | cut => cases hs
  | next hn hd h ih =>
    cases hs
    rw [ih rfl, List.cons_append]

/-- What a factor took it takes again. -/
theorem again (h : Takes m n l ⟨x, [], rest⟩) (hl : AllValid m l) :
    Takes m n x ⟨x, [], []⟩ := by
  generalize hs : (⟨x, [], rest⟩ : Share) = share at h
  induction h generalizing x with
  | nil | full => cases hs; exact .nil _
  | next hn hd h ih =>
    rw [allValid_cons] at hl
    cases hs
    exact .next hn hd (ih hl.2 rfl)
  | cut hn hd h =>
    rw [allValid_cons] at hl
    obtain ⟨-, -, -, -, hsize⟩ := AxisRef.split_eq_some hl.1 h
    cases hs
    exact .next hn (hsize ▸ Nat.dvd_refl _) (.nil _)
  | misfit hn hd h =>
    cases hs
    exact .misfit hn hd h

/-- A reference that uses up the size is taken alone, also where it meets what follows it
within an axis. -/
theorem push_single {a : AxisRef} (ha : a.Valid m) (hr : AllValid m r) (hs : 1 < a.size m) :
    Takes m (a.size m) (push m a r) ⟨[a], [], r⟩ := by
  have hq : a.size m / a.size m = 1 := Nat.div_self ha.size_pos
  cases r with
  | nil => exact .next hs (Nat.dvd_refl _) (.nil _)
  | cons b r =>
    rw [allValid_cons] at hr
    by_cases hm : a.canMerge b m = true
    · have hb : 1 < b.size m := (one_lt_size_iff_of_canMerge ha hr.1 hm).1 hs
      have hlt : a.size m < a.size m * b.size m := by
        simpa using Nat.mul_lt_mul_of_pos_left hb ha.size_pos
      rw [push_cons_of_canMerge hm]
      refine .cut hs (fun hd => ?_) (AxisRef.split_merge ha hr.1 hm hs hb)
      rw [AxisRef.merge_size] at hd
      exact Nat.not_le_of_lt hlt (Nat.le_of_dvd ha.size_pos hd)
    · rw [push_cons_of_not hm]
      exact .next hs (Nat.dvd_refl _) (.full (by omega))

/-- A factor whose size is used up by a list takes it off a longer one. -/
theorem append (h : Takes m n l ⟨l, [], []⟩) (hl : AllValid m l) (hr : AllValid m r)
    (hsl : Separated m l) (hsr : Separated m r) (hfull : totalSize m l = max n 1) :
    Takes m n (mergeAdjacent m (l ++ r)) ⟨l, [], r⟩ := by
  induction l generalizing n with
  | nil =>
    have hn : n ≤ 1 := by simp at hfull; omega
    rw [List.nil_append, hsr.mergeAdjacent_eq]
    cases r with
    | nil => exact .nil n
    | cons b r => exact .full hn
  | cons a l ih =>
    rw [allValid_cons] at hl
    rw [totalSize_cons] at hfull
    cases h with
    | misfit hn hd h =>
      simp only [totalSize_nil, Nat.mul_one] at hfull
      exact absurd ⟨1, by omega⟩ hd
    | next hn hd h =>
      have hsize : totalSize m l = n / a.size m := by
        rw [← Nat.max_eq_left (Nat.le_of_lt hn), ← hfull,
          Nat.mul_div_cancel_left _ hl.1.size_pos]
      cases l with
      | nil =>
        have hna : a.size m = n := by simp only [totalSize_nil] at hfull; omega
        subst hna
        rw [List.singleton_append, mergeAdjacent_cons, hsr.mergeAdjacent_eq]
        exact push_single hl.1 hr hn
      | cons b l =>
        have hpos := totalSize_pos hl.2
        have htail := ih h hl.2 hsl.tail (by omega)
        rw [List.cons_append, mergeAdjacent_cons, push_append_of_separated hsl]
        exact .next hn hd htail

/-- A factor whose size is used up by a list takes it in its merged form, too. -/
theorem merged (h : Takes m n l ⟨l, [], []⟩) (hl : AllValid m l)
    (hfull : totalSize m l = max n 1) :
    Takes m n (mergeAdjacent m l) ⟨mergeAdjacent m l, [], []⟩ := by
  induction l generalizing n with
  | nil => exact .nil n
  | cons a l ih =>
    rw [allValid_cons] at hl
    rw [totalSize_cons] at hfull
    cases h with
    | misfit hn hd h =>
      simp only [totalSize_nil, Nat.mul_one] at hfull
      exact absurd ⟨1, by omega⟩ hd
    | next hn hd h =>
      have hsize : totalSize m l = n / a.size m := by
        rw [← Nat.max_eq_left (Nat.le_of_lt hn), ← hfull,
          Nat.mul_div_cancel_left _ hl.1.size_pos]
      have hpos := totalSize_pos hl.2
      have htail := ih h hl.2 (by omega)
      have htotal := totalSize_mergeAdjacent (m := m) l
      rw [mergeAdjacent_cons]
      generalize mergeAdjacent m l = joint at htail htotal
      cases joint with
      | nil => exact .next hn hd htail
      | cons b rest =>
        by_cases hm : a.canMerge b m = true
        · rw [push_cons_of_canMerge hm]
          cases htail with
          | misfit hn' hd' _ =>
            simp only [totalSize_cons, totalSize_nil, Nat.mul_one] at htotal
            exact absurd ⟨1, by omega⟩ hd'
          | next hn' hd' htail =>
            rw [Nat.div_div_eq_div_mul, ← AxisRef.merge_size] at htail
            refine .next hn ?_ htail
            rw [AxisRef.merge_size]
            exact Nat.mul_dvd_of_dvd_div hd hd'
        · rw [push_cons_of_not hm]
          exact .next hn hd htail

end Takes
end Share
end MeshSharding
