import MeshSharding.Proofs.AxisList.Meet
import MeshSharding.Proofs.AxisList.Removal

/-! Parts that can be stripped off. What two lists have in common refines all such parts of both. It
is one itself exactly if the lists part evenly, and in clear lists, which part evenly, every major
part is. -/
namespace MeshSharding
namespace AxisRef

variable {m : Mesh} {a p x y : AxisRef}

/-- Only a valid window can be cut off a valid reference. -/
theorem eq_of_split_of_isPrefixOf (ha : a.Valid m) (hpart : p.isPrefixOf a m = true)
    (h : a.split (p.size m) m = some (x, y)) : x = p := by
  obtain ⟨hname, hpre, -⟩ := isPrefixOf_iff.1 hpart
  obtain ⟨-, hlt, -⟩ := isSome_split_iff.1 (Option.isSome_of_eq_some h)
  have hle : a.size m ≤ a.fullSize m :=
    Nat.le_trans (Nat.le_mul_of_pos_left _ ha.preSize_pos)
      (Nat.le_of_dvd (a.fullSize_pos m) ha.nextPreSize_dvd)
  unfold split at h
  split at h
  · cases h
  · cases h
    obtain ⟨name, _ | w⟩ := p
    · -- the whole axis is no smaller than the reference
      have hfull : (AxisRef.mk name none).size m = a.fullSize m := fullSize_congr m hname
      omega
    · have hne : ¬ (a.preSize = 1 ∧ (AxisRef.mk name (some w)).size m = a.fullSize m) := by omega
      rw [ofWindow, if_neg hne, sub, ← hname, ← hpre]
      rfl

end AxisRef

namespace AxisList

variable {m : Mesh} {axes part rest l r : List AxisRef} {a b p : AxisRef}

section parts

theorem AllValid.of_cutMerged (haxes : AllValid m axes) (h : (cutMerged m axes part).isSome) :
    AllValid m part := by
  induction part generalizing axes with
  | nil => exact List.forall_mem_nil _
  | cons p ps ih =>
    cases axes with
    | nil => cases h
    | cons a as =>
      rw [allValid_cons] at haxes ⊢
      rw [cutMerged] at h
      split at h
      · rename_i hpa
        exact ⟨hpa ▸ haxes.1, ih haxes.2 h⟩
      · split at h
        · rename_i hlast
          rw [Option.isSome_map] at h
          obtain ⟨⟨x, y⟩, hsplit⟩ := Option.isSome_iff_exists.1 h
          obtain rfl := AxisRef.eq_of_split_of_isPrefixOf haxes.1 hlast.2 hsplit
          rw [List.isEmpty_iff.1 hlast.1]
          exact ⟨(AxisRef.split_eq_some haxes.1 hsplit).1, List.forall_mem_nil _⟩
        · cases h

/-- What can be taken off two lists can be taken off their common part. -/
theorem isSome_cutMerged_meet_of (hl : AllValid m l) (hr : AllValid m r)
    (h : (cutMerged m l part).isSome) (h' : (cutMerged m r part).isSome) :
    (cutMerged m (meet m l r) part).isSome := by
  have hpart := hl.of_cutMerged h
  rw [isSome_cutMerged_iff hpart hl] at h
  rw [isSome_cutMerged_iff hpart hr] at h'
  rw [isSome_cutMerged_iff hpart (meet_spec hl hr).1]
  refine ⟨(meet_meet_eq_left_iff hpart hl hr).2 ⟨h.1, h'.1⟩, fun i p c hp hc => ?_⟩
  rcases getElem?_meet hl hr hc with hc | hc
  · exact h.2 i p c hp hc
  · exact h'.2 i p c hp hc

end parts

section greatest

/-- The list can be stripped off both lists, and so can the parts of it, but nothing else can. -/
structure IsGreatestPart (m : Mesh) (l r common : List AxisRef) : Prop where
  left : (stripPrefix? m l common).isSome
  right : (stripPrefix? m r common).isSome
  greatest : ∀ part, (stripPrefix? m l part).isSome → (stripPrefix? m r part).isSome →
    (stripPrefix? m common part).isSome

theorem stripPrefix?_commonPrefix_right (m : Mesh) (axes l r : List AxisRef) :
    stripPrefix? m axes (commonPrefix m l r)
      = cutMerged m (mergeAdjacent m axes) (commonPrefix m l r) := by
  rw [stripPrefix?, mergeAdjacent_commonPrefix]

/-- The common part of two lists has every part that can be stripped off both. It can be stripped
off both itself exactly if the merged lists part evenly. -/
theorem isGreatestPart_commonPrefix_iff (hl : AllValid m l) (hr : AllValid m r) :
    (∀ part, (stripPrefix? m l part).isSome → (stripPrefix? m r part).isSome →
      (stripPrefix? m (commonPrefix m l r) part).isSome) ∧
    (IsGreatestPart m l r (commonPrefix m l r) ↔
      PartEvenly m (mergeAdjacent m l) (mergeAdjacent m r)) := by
  have hgreatest : ∀ part, (stripPrefix? m l part).isSome → (stripPrefix? m r part).isSome →
      (stripPrefix? m (commonPrefix m l r) part).isSome := by
    intro part h h'
    rw [stripPrefix?, mergeAdjacent_commonPrefix]
    exact isSome_cutMerged_meet_of hl.mergeAdjacent hr.mergeAdjacent h h'
  refine ⟨hgreatest, ?_⟩
  rw [← isSome_cutMerged_meet_iff hl.mergeAdjacent hr.mergeAdjacent, ← commonPrefix,
    ← stripPrefix?_commonPrefix_right, ← stripPrefix?_commonPrefix_right]
  exact ⟨fun h => ⟨h.left, h.right⟩, fun h => ⟨h.1, h.2, hgreatest⟩⟩

/-- The first half of an axis of size 4 ends evenly within the axis. -/
theorem isGreatestPart_commonPrefix_four :
    let m := Mesh.grid 4 2 (Nat.zero_lt_succ 3) Nat.two_pos
    let l : List AxisRef := [.full "y", .sub "x" 1 2]
    let r : List AxisRef := [.full "y", .full "x"]
    AllValid m l ∧ AllValid m r ∧ commonPrefix m l r = l ∧
      IsGreatestPart m l r (commonPrefix m l r) := by
  intro m l r
  have hl : AllValid m l := by
    unfold AllValid AxisRef.Valid
    decide
  have hr : AllValid m r := by
    unfold AllValid AxisRef.Valid
    decide
  refine ⟨hl, hr, by decide, (isGreatestPart_commonPrefix_iff hl hr).2.2 ?_⟩
  have hleft : mergeAdjacent m l = l := by decide
  have hright : mergeAdjacent m r = r := by decide
  rw [hleft, hright, partEvenly_cons_self, partEvenly_cons_of_ne (by decide)]
  exact fun _ _ => .inl (by decide)

/-- A part of size 2 of an axis of size 6 begins where one of size 3 does, but that one has no part
of size 2. -/
theorem not_isGreatestPart_commonPrefix_six :
    let m := Mesh.grid 6 2 (Nat.zero_lt_succ 5) Nat.two_pos
    let l : List AxisRef := [.sub "x" 1 2]
    let r : List AxisRef := [.sub "x" 1 3]
    AllValid m l ∧ AllValid m r ∧ l.Pairwise (fun a b => a.overlaps b m = false) ∧
      r.Pairwise (fun a b => a.overlaps b m = false) ∧ commonPrefix m l r = [.sub "x" 1 2] ∧
      stripPrefix? m r (commonPrefix m l r) = none ∧
      ¬ IsGreatestPart m l r (commonPrefix m l r) := by
  intro m l r
  have hl : AllValid m l := by
    unfold AllValid AxisRef.Valid
    decide
  have hr : AllValid m r := by
    unfold AllValid AxisRef.Valid
    decide
  have hnone : stripPrefix? m r (commonPrefix m l r) = none := by decide
  refine ⟨hl, hr, by decide, by decide, by decide, hnone, fun h => ?_⟩
  have hsome := h.right
  rw [hnone] at hsome
  cases hsome

end greatest

section clear

variable {cut : Subdivision}

theorem clear_append_of_atomize (hcut : atomize m [l, r] = .ok cut) (hnone : cut.opaqueAxes = []) :
    Clear m (l ++ r) := by
  obtain ⟨rfl, -⟩ := atomize_eq_ok hcut
  rw [clear_iff]
  simpa using hnone

/-- In clear lists every major part can be stripped off. -/
theorem Clear.isSome_stripPrefix? (hclear : Clear m (part ++ axes)) (hpart : AllValid m part)
    (haxes : AllValid m axes) (h : isPrefix m part axes = true) :
    (stripPrefix? m axes part).isSome := by
  have hall := within_boundaries (m := m) (part ++ axes)
  have hmerged : Clear m (mergeAdjacent m axes ++ mergeAdjacent m part) :=
    hclear.of_within <| within_append.2 ⟨(within_append.1 hall).2.mergeAdjacent,
      (within_append.1 hall).1.mergeAdjacent⟩
  have hcut := isSome_cutMerged_meet hmerged haxes.mergeAdjacent hpart.mergeAdjacent
  have hmeet : meet m (mergeAdjacent m part) (mergeAdjacent m axes) = mergeAdjacent m part :=
    of_decide_eq_true h
  rwa [meet_comm, hmeet] at hcut

theorem isPrefix_of_equivalent (h : equivalent m l r = true) : isPrefix m l r = true := by
  rw [equivalent, decide_eq_true_eq] at h
  rw [← isPrefix_mergeAdjacent_right, ← h, isPrefix_mergeAdjacent_right]
  exact isPrefix_self m l

/-- Where no axis is opaque, one list is a major part of another exactly if it can be stripped off.
What is left then makes the list up again with it, in axes and in number of shards. Lists that are
major parts of each other are equivalent. -/
theorem isPrefix_iff_exists_stripPrefix? (hpart : AllValid m part) (haxes : AllValid m axes)
    (hcut : atomize m [part, axes] = .ok cut) (hnone : cut.opaqueAxes = []) :
    (isPrefix m part axes = true ↔ ∃ rest, stripPrefix? m axes part = some rest) ∧
    (∀ rest, stripPrefix? m axes part = some rest → equivalent m (part ++ rest) axes = true ∧
      totalSize m axes = totalSize m part * totalSize m rest) ∧
    (isPrefix m part axes = true ∧ isPrefix m axes part = true ↔
      equivalent m part axes = true) := by
  refine ⟨?_, fun rest hrest => ?_, ?_⟩
  · rw [← Option.isSome_iff_exists]
    exact ⟨(clear_append_of_atomize hcut hnone).isSome_stripPrefix? hpart haxes,
      fun h => ((isSome_stripPrefix?_iff hpart haxes).1 h).1⟩
  · have hmerge := (stripPrefix?_eq_some haxes hpart hrest).2
    refine ⟨decide_eq_true hmerge, ?_⟩
    rw [← totalSize_append, ← totalSize_mergeAdjacent m axes, ← hmerge, totalSize_mergeAdjacent]
  · refine ⟨fun h => decide_eq_true (mergeAdjacent_eq_of_isPrefix h.1 h.2), fun h => ?_⟩
    have hsymm : equivalent m axes part = true :=
      decide_eq_true (of_decide_eq_true h).symm
    exact ⟨isPrefix_of_equivalent h, isPrefix_of_equivalent hsymm⟩

/-- A half of the list is left behind the first quarter of an axis of size 8. -/
theorem isPrefix_iff_exists_stripPrefix?_eight :
    let m := Mesh.grid 8 2 (Nat.zero_lt_succ 7) Nat.two_pos
    let part : List AxisRef := [.full "y", .sub "x" 1 2]
    let axes : List AxisRef := [.full "y", .sub "x" 1 2, .sub "x" 2 2]
    AllValid m part ∧ AllValid m axes ∧
      ∃ cut, atomize m [part, axes] = .ok cut ∧ cut.opaqueAxes = [] ∧
        isPrefix m part axes = true ∧ stripPrefix? m axes part = some [.sub "x" 2 2] ∧
        totalSize m axes = totalSize m part * totalSize m [.sub "x" 2 2] := by
  intro m part axes
  have hpart : AllValid m part := by
    unfold AllValid AxisRef.Valid
    decide
  have haxes : AllValid m axes := by
    unfold AllValid AxisRef.Valid
    decide
  have hcut : atomize m [part, axes] = .ok ⟨[part, axes], []⟩ := by decide +kernel
  have hstrip : stripPrefix? m axes part = some [.sub "x" 2 2] := by decide
  obtain ⟨hiff, hrest, -⟩ := isPrefix_iff_exists_stripPrefix? hpart haxes hcut rfl
  exact ⟨hpart, haxes, _, hcut, rfl, hiff.2 ⟨_, hstrip⟩, hstrip, (hrest _ hstrip).2⟩

end clear

end AxisList
end MeshSharding
