import MeshSharding.Proofs.AxisList.Prefix

/-! Stripping in two steps. What is taken off a list in front of another part is taken off together
with it, and what is left behind a longer part is left of what the shorter one leaves. -/
namespace MeshSharding

namespace AxisRef

variable {m : Mesh} {a p e x y z : AxisRef} {n k : Nat}

/-- A piece of the minor piece can be cut off together with the major one. -/
theorem split_merge_of_split (ha : a.Valid m) (h : a.split n m = some (p, y))
    (hy : y.split k m = some (e, z)) :
    p.canMerge e m = true ∧ a.split ((p.merge e m).size m) m = some (p.merge e m, z) := by
  obtain ⟨hvp, hvy, hpy, rfl, -⟩ := split_eq_some ha h
  obtain ⟨hp, -⟩ := one_lt_size_of_split ha h
  obtain ⟨he, hz⟩ := one_lt_size_of_split hvy hy
  obtain ⟨hve, hvz, hez, rfl, -⟩ := split_eq_some hvy hy
  rw [canMerge_merge_right] at hpy
  have hsize : 1 < (p.merge e m).size m := by
    rw [merge_size]
    exact Nat.one_lt_mul_iff.2 ⟨by omega, by omega, .inl hp⟩
  refine ⟨hpy, ?_⟩
  rw [← merge_assoc]
  exact split_merge (hvp.merge hve hpy) hvz (by rwa [canMerge_merge_left hpy]) hsize hz

/-- A piece of the major piece can be cut off alone, and then the rest of that piece. -/
theorem split_split (ha : a.Valid m) (h : a.split n m = some (x, y))
    (hx : x.split k m = some (p, z)) :
    ∃ w, a.split (p.size m) m = some (p, w) ∧ w.split (z.size m) m = some (z, y) := by
  obtain ⟨hvx, hvy, hxy, rfl, -⟩ := split_eq_some ha h
  obtain ⟨-, hy⟩ := one_lt_size_of_split ha h
  obtain ⟨hp, hz⟩ := one_lt_size_of_split hvx hx
  obtain ⟨hvp, hvz, hpz, rfl, -⟩ := split_eq_some hvx hx
  rw [canMerge_merge_left hpz] at hxy
  have hsize : 1 < (z.merge y m).size m := by
    rw [merge_size]
    exact Nat.one_lt_mul_iff.2 ⟨by omega, by omega, .inl hz⟩
  refine ⟨z.merge y m, ?_, split_merge hvz hvy hxy hz hy⟩
  rw [merge_assoc]
  exact split_merge hvp (hvz.merge hvy hxy) (by rwa [canMerge_merge_right]) hp hsize

end AxisRef

namespace AxisList

variable {m : Mesh} {axes part rest more left cur towards : List AxisRef} {a p : AxisRef}

theorem cutMerged_singleton {n : Nat} {x y : AxisRef} (ha : a.Valid m)
    (h : a.split n m = some (x, y)) : cutMerged m (a :: axes) [x] = some (y :: axes) :=
  (cutMerged_cons_eq_some_iff ha (AxisRef.split_eq_some ha h).1).2 (.inr ⟨rfl, n, y, h, rfl⟩)

/-- What a longer part has behind a shorter one is taken off what the shorter one leaves. -/
theorem exists_cutMerged_of_cutMerged (haxes : AllValid m axes) (hcur : AllValid m cur)
    (hpart : AllValid m part) (h : cutMerged m axes cur = some left)
    (hmore : cutMerged m cur part = some more) :
    ∃ rest, cutMerged m axes part = some rest ∧ cutMerged m rest more = some left := by
  induction part generalizing axes cur left with
  | nil =>
    rw [cutMerged] at hmore
    cases hmore
    exact ⟨axes, by rw [cutMerged], h⟩
  | cons p ps ih =>
    cases cur with
    | nil => cases hmore
    | cons b bs =>
    cases axes with
    | nil => cases h
    | cons a as =>
      rw [allValid_cons] at haxes hcur hpart
      rw [cutMerged_cons_eq_some_iff haxes.1 hcur.1] at h
      rw [cutMerged_cons_eq_some_iff hcur.1 hpart.1] at hmore
      rcases h with ⟨rfl, htail⟩ | ⟨rfl, n, y, hsplit, rfl⟩
      · rcases hmore with ⟨rfl, hmore⟩ | ⟨rfl, n, z, hsplit, rfl⟩
        · obtain ⟨rest, hrest, hleft⟩ := ih haxes.2 hcur.2 hpart.2 htail hmore
          exact ⟨rest, by rw [cutMerged, if_pos rfl, hrest], hleft⟩
        · exact ⟨z :: as, cutMerged_singleton haxes.1 hsplit,
            by rw [cutMerged, if_pos rfl, htail]⟩
      · rcases hmore with ⟨rfl, hmore⟩ | ⟨rfl, k, z, hpiece, rfl⟩
        · cases ps with
          | nil =>
            rw [cutMerged] at hmore
            cases hmore
            exact ⟨y :: as, cutMerged_singleton haxes.1 hsplit, by rw [cutMerged]⟩
          | cons _ _ => cases hmore
        · obtain ⟨w, hw, hz⟩ := AxisRef.split_split haxes.1 hsplit hpiece
          exact ⟨w :: as, cutMerged_singleton haxes.1 hw,
            cutMerged_singleton (AxisRef.split_eq_some haxes.1 hw).2.1 hz⟩

/-- In front of a part nothing more can be merged than in front of the list. -/
theorem push_of_cutMerged (hsep : Separated m (a :: axes)) (hpart : AllValid m part)
    (haxes : AllValid m axes) (h : cutMerged m axes part = some rest) :
    push m a part = a :: part := by
  cases part with
  | nil => rfl
  | cons p ps =>
    cases axes with
    | nil => cases h
    | cons b bs =>
      rw [allValid_cons] at hpart haxes
      have hnot := (List.isChain_cons_cons.1 hsep).1
      rcases (cutMerged_cons_eq_some_iff haxes.1 hpart.1).1 h with ⟨rfl, -⟩ | ⟨-, n, y, hsplit, -⟩
      · exact push_cons_of_not hnot ps
      · obtain ⟨-, -, -, rfl, -⟩ := AxisRef.split_eq_some haxes.1 hsplit
        rw [AxisRef.canMerge_merge_right] at hnot
        exact push_cons_of_not hnot ps

/-- A part of a merged list is merged. -/
theorem mergeAdjacent_of_cutMerged (hsep : Separated m axes) (haxes : AllValid m axes)
    (hpart : AllValid m part) (h : cutMerged m axes part = some rest) :
    mergeAdjacent m part = part := by
  induction part generalizing axes with
  | nil => rfl
  | cons p ps ih =>
    cases axes with
    | nil => cases h
    | cons a as =>
      rw [allValid_cons] at haxes hpart
      rcases (cutMerged_cons_eq_some_iff haxes.1 hpart.1).1 h with ⟨rfl, htail⟩ | ⟨rfl, -⟩
      · rw [mergeAdjacent_cons, ih hsep.tail haxes.2 hpart.2 htail,
          push_of_cutMerged hsep hpart.2 haxes.2 htail]
      · rfl

/-- Behind a piece of the first reference, the list that it leaves is merged like the list. -/
theorem Separated.of_split {n : Nat} {x y : AxisRef} (hsep : Separated m (a :: axes))
    (ha : a.Valid m) (h : a.split n m = some (x, y)) : Separated m (y :: axes) := by
  obtain ⟨-, -, hm, rfl, -⟩ := AxisRef.split_eq_some ha h
  cases axes with
  | nil => simp [Separated]
  | cons b axes =>
    obtain ⟨hnot, htail⟩ := List.isChain_cons_cons.1 hsep
    rw [AxisRef.canMerge_merge_left hm] at hnot
    exact List.isChain_cons_cons.2 ⟨hnot, htail⟩

/-- Two parts that are taken off one after the other are taken off together. -/
theorem cutMerged_append (hsep : Separated m axes) (haxes : AllValid m axes)
    (hpart : AllValid m part) (hmore : AllValid m more) (h : cutMerged m axes part = some rest)
    (hrest : cutMerged m rest more = some left) :
    cutMerged m axes (mergeAdjacent m (part ++ more)) = some left := by
  induction part generalizing axes with
  | nil =>
    rw [cutMerged] at h
    cases h
    rw [List.nil_append, mergeAdjacent_of_cutMerged hsep haxes hmore hrest, hrest]
  | cons p ps ih =>
    cases axes with
    | nil => cases h
    | cons a as =>
      rw [allValid_cons] at haxes hpart
      rw [List.cons_append, mergeAdjacent_cons]
      rcases (cutMerged_cons_eq_some_iff haxes.1 hpart.1).1 h with
        ⟨rfl, htail⟩ | ⟨rfl, n, y, hsplit, rfl⟩
      · have hcut : cutMerged m as (mergeAdjacent m (ps ++ more)) = some left :=
          ih hsep.tail haxes.2 hpart.2 htail
        have hvalid := (allValid_append.2 ⟨hpart.2, hmore⟩).mergeAdjacent
        rw [push_of_cutMerged hsep hvalid haxes.2 hcut, cutMerged, if_pos rfl, hcut]
      · -- the first part ends within the first reference, and the second one begins there
        have hvy := (AxisRef.split_eq_some haxes.1 hsplit).2.1
        have hcons := allValid_cons.2 ⟨hvy, haxes.2⟩
        rw [List.nil_append, mergeAdjacent_of_cutMerged (hsep.of_split haxes.1 hsplit) hcons
          hmore hrest]
        cases more with
        | nil =>
          rw [cutMerged] at hrest
          cases hrest
          exact cutMerged_singleton haxes.1 hsplit
        | cons e es =>
          rw [allValid_cons] at hmore
          rcases (cutMerged_cons_eq_some_iff hvy hmore.1).1 hrest with
            ⟨rfl, hes⟩ | ⟨rfl, k, z, hpiece, rfl⟩
          · obtain ⟨-, -, hm, hmerge, -⟩ := AxisRef.split_eq_some haxes.1 hsplit
            rw [push_cons_of_canMerge hm, hmerge, cutMerged, if_pos rfl, hes]
          · obtain ⟨hm, hcut⟩ := AxisRef.split_merge_of_split haxes.1 hsplit hpiece
            rw [push_cons_of_canMerge hm]
            exact cutMerged_singleton haxes.1 hcut

theorem stripPrefix?_append_of_cutMerged (htowards : AllValid m towards) (hcur : AllValid m cur)
    (hmore : AllValid m more) (h : stripPrefix? m towards cur = some rest)
    (hrest : cutMerged m rest more = some left) :
    stripPrefix? m towards (cur ++ more) = some left := by
  rw [stripPrefix?, ← mergeAdjacent_append_left]
  exact cutMerged_append (separated_mergeAdjacent _) htowards.mergeAdjacent
    hcur.mergeAdjacent hmore h hrest

end AxisList
end MeshSharding
