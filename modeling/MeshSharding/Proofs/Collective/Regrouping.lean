import Mathlib.Algebra.Order.BigOperators.GroupWithZero.List
import Mathlib.Algebra.Order.Ring.Nat
import MeshSharding.Proofs.Resharding.Outcome

/-! Collectives with any references. No collective asks its references to be valid before it
looks for them, but what it takes off valid axes is valid, and what moves between dimensions
runs through the places it ran through before. -/
namespace MeshSharding

open AxisList

variable {m : Mesh} {c : Collective} {s t u : TensorSharding} {l r : List AxisRef}

namespace AxisRef

/-- Passing a place `c` multiplies the number of parts by `(c + 1) / c`. -/
theorem mul_prod_range' (p n : Nat) :
    (p + n) * (List.range' p n).prod = p * ((List.range' p n).map (· + 1)).prod := by
  induction n generalizing p with
  | zero => rfl
  | succ n ih =>
    rw [List.range'_succ, List.prod_cons, List.map_cons, List.prod_cons, ← ih (p + 1)]
    calc (p + (n + 1)) * (p * (List.range' (p + 1) n).prod)
        = p * ((p + (n + 1)) * (List.range' (p + 1) n).prod) := Nat.mul_left_comm ..
      _ = p * ((p + 1 + n) * (List.range' (p + 1) n).prod) := by
        rw [Nat.add_right_comm p 1 n, Nat.add_assoc]

theorem Valid.size_mul_prod {a : AxisRef} (h : a.Valid m) :
    a.size m * ((a.places m).map (·.2)).prod = ((a.places m).map (·.2 + 1)).prod := by
  have hle := h.preSize_le_nextPreSize
  have hsum : a.preSize * a.size m = a.preSize + (a.nextPreSize m - a.preSize) := by
    unfold nextPreSize at hle ⊢
    omega
  have hrange := mul_prod_range' a.preSize (a.nextPreSize m - a.preSize)
  rw [← hsum, Nat.mul_assoc] at hrange
  simpa [places, Function.comp_def] using Nat.eq_of_mul_eq_mul_left h.preSize_pos hrange

end AxisRef

namespace AxisList

theorem totalSize_mul_prod (h : AllValid m l) :
    totalSize m l * ((places m l).map (·.2)).prod = ((places m l).map (·.2 + 1)).prod := by
  induction l with
  | nil => rfl
  | cons a rest ih =>
    rw [allValid_cons] at h
    rw [places_cons, List.map_append, List.map_append, List.prod_append, List.prod_append,
      totalSize_cons, ← h.1.size_mul_prod, ← ih h.2]
    exact Nat.mul_mul_mul_comm ..

theorem prod_places_pos (h : AllValid m l) : 0 < ((places m l).map (·.2)).prod := by
  refine List.prod_pos fun n hn => ?_
  obtain ⟨⟨name, c⟩, hc, rfl⟩ := List.mem_map.1 hn
  obtain ⟨a, ha, hca⟩ := List.mem_flatMap.1 hc
  have hpos := (h a ha).preSize_pos
  simp only [AxisRef.places, List.mem_map, List.mem_range'_1, Prod.mk.injEq] at hca
  dsimp only
  omega

theorem places_perm (h : l.Perm r) : (places m l).Perm (places m r) := h.flatMap_right _

/-- The places of valid lists determine into how many parts they cut. -/
theorem totalSize_eq_of_places (hl : AllValid m l) (hr : AllValid m r)
    (h : (places m l).Perm (places m r)) : totalSize m l = totalSize m r := by
  have hprod := (h.map (·.2)).prod_eq
  have hprod' := (h.map (·.2 + 1)).prod_eq
  refine Nat.eq_of_mul_eq_mul_right (prod_places_pos hl) ?_
  rw [totalSize_mul_prod hl, hprod, totalSize_mul_prod hr, hprod']

end AxisList

namespace TensorSharding

/-- `t` has other axes along its dimensions, but all in all they run through the same places. -/
structure Rearranges (m : Mesh) (s t : TensorSharding) : Prop where
  upright : AllUpright m t.usedAxes
  places : (places m t.usedAxes).Perm (places m s.usedAxes)
  rank : t.rank = s.rank
  replicated : t.replicated = s.replicated
  unreduced : t.unreduced = s.unreduced

theorem forall_usedAxes_modifyDim {P : AxisRef → Prop} (h : ∀ a ∈ s.usedAxes, P a) {dim : Nat}
    {d : DimSharding} (hd : s.dims[dim]? = some d) {f : DimSharding → DimSharding}
    (hf : ∀ a ∈ (f d).axes, P a) : ∀ a ∈ (s.modifyDim dim f).usedAxes, P a := by
  intro a ha
  rw [(perm_usedAxes (dims_modifyDim hd f)).mem_iff, axesOutside_modifyDim, List.mem_append] at ha
  rcases ha with ha | ha
  · exact hf a ha
  · exact h a ((perm_usedAxes hd).mem_iff.2 (List.mem_append_right _ ha))

theorem places_usedAxes {dim : Nat} {d : DimSharding} (hd : s.dims[dim]? = some d) :
    (places m s.usedAxes).Perm (places m d.axes ++ places m (s.axesOutside dim)) := by
  rw [← places_append]
  exact places_perm (perm_usedAxes hd)

namespace Rearranges

theorem trans (h : Rearranges m s t) (h' : Rearranges m t u) : Rearranges m s u :=
  ⟨h'.upright, h'.places.trans h.places, h'.rank.trans h.rank,
    h'.replicated.trans h.replicated, h'.unreduced.trans h.unreduced⟩

/-- What runs through the same places covers no place twice if the other does not. -/
theorem apart (h : Rearranges m s t) (hs : Apart m s.usedAxes) : Apart m t.usedAxes := by
  intro name c
  rw [coverage_eq_count, h.places.count_eq, ← coverage_eq_count]
  exact hs name c

theorem places_dimAxes (h : Rearranges m s t) :
    (AxisList.places m t.dimAxes).Perm (AxisList.places m s.dimAxes) := by
  have hplaces := h.places
  simp only [usedAxes, places_append, h.replicated, h.unreduced] at hplaces
  exact (List.perm_append_right_iff _).1 ((List.perm_append_right_iff _).1 hplaces)

theorem totalSize_eq (h : Rearranges m s t) (hs : s.ValidDims m) (ht : t.ValidDims m) :
    totalSize m t.dimAxes = totalSize m s.dimAxes :=
  totalSize_eq_of_places ht.allValid_dimAxes hs.allValid_dimAxes h.places_dimAxes

end Rearranges
end TensorSharding

namespace Collective

open TensorSharding

section exchange

/-- A suffix takes its places along from one dimension to another. -/
theorem rearranges_applyMove (hs : AllUpright m s.usedAxes) {move : Move}
    (h : c.applyMove m s move = .ok t) : Rearranges m s t := by
  obtain ⟨d, e, kept, hd, he, hne, hremove, rfl⟩ := applyMove_eq_ok h
  obtain ⟨hkept, hsuffix, hsplit⟩ := places_removeSuffix hremove
  generalize hf : (fun d : DimSharding => { d with axes := kept }) = f
  have hfd : (f d).axes = kept := by rw [← hf]
  have hu := forall_usedAxes_modifyDim hs hd (hfd ▸ hkept)
  have he' : (s.modifyDim move.source f).dims[move.target]? = some e := by
    rw [dims_modifyDim_of_ne (Ne.symm hne), he]
  have htarget : AllUpright m e.axes := fun a ha =>
    hs a ((perm_usedAxes he).mem_iff.2 (List.mem_append_left _ ha))
  have hjoined := allUpright_append.2 ⟨htarget, hsuffix⟩
  refine ⟨?_, ?_, by simp [moved], rfl, rfl⟩
  · rw [moved, hf]
    exact forall_usedAxes_modifyDim hu he' hjoined.mergeAdjacent
  · -- the places of the suffix leave with the first change and come back with the second one
    refine List.perm_iff_count.2 fun p => ?_
    have hbefore := (places_usedAxes (m := m) hd).count_eq p
    have hbetween := (places_usedAxes (m := m) (dims_modifyDim hd f)).count_eq p
    have hbetween' := (places_usedAxes (m := m) he').count_eq p
    have hafter := (places_usedAxes (m := m) (dims_modifyDim he' fun d =>
      { d with axes := mergeAdjacent m (e.axes ++ move.axes) })).count_eq p
    rw [moved, hf]
    simp only [axesOutside_modifyDim, hfd, hsplit, places_mergeAdjacent hjoined, places_append,
      List.count_append] at hbefore hbetween hbetween' hafter ⊢
    omega

theorem rearranges_foldlM_applyMove (hs : AllUpright m s.usedAxes) {moves : List Move}
    (h : moves.foldlM (c.applyMove m) s = .ok t) : Rearranges m s t :=
  foldlM_keeps h ⟨hs, .refl _, rfl, rfl, rfl⟩ fun _ _ _ _ hu hmove =>
    hu.trans (rearranges_applyMove hu.upright hmove)

theorem allValid_applyMove (hs : AllValid m s.usedAxes) {move : Move} (hm : AllValid m move.axes)
    (h : c.applyMove m s move = .ok t) : AllValid m t.usedAxes := by
  obtain ⟨d, e, kept, hd, he, hne, hremove, rfl⟩ := applyMove_eq_ok h
  have haxes : ∀ {dim : Nat} {d : DimSharding}, s.dims[dim]? = some d → AllValid m d.axes :=
    fun hd a ha => hs a ((perm_usedAxes hd).mem_iff.2 (List.mem_append_left _ ha))
  obtain ⟨_, hremoved, -⟩ := exists_removed (haxes hd) hremove
  have hjoined := allValid_append.2 ⟨haxes he, hm⟩
  have hfirst := forall_usedAxes_modifyDim hs hd
    (f := fun d => { d with axes := kept }) (allValid_append.1 hremoved).1
  have he' := dims_modifyDim_of_ne (s := s) (Ne.symm hne) fun d => { d with axes := kept }
  exact forall_usedAxes_modifyDim hfirst (he'.trans he) hjoined.mergeAdjacent

/-- Moves of valid references keep all references valid. -/
theorem allValid_foldlM_applyMove (hs : AllValid m s.usedAxes) {moves : List Move}
    (hmoves : ∀ move ∈ moves, AllValid m move.axes)
    (h : moves.foldlM (c.applyMove m) s = .ok t) : AllValid m t.usedAxes :=
  foldlM_keeps (motive := fun t => AllValid m t.usedAxes) h hs fun move hmem _ _ hu hmove =>
    allValid_applyMove hu (hmoves move hmem) hmove

end exchange

section gather

/-- A gather that can be applied drops valid axes at the ends of the dimensions. -/
theorem exists_spells_allGather {axes : List (List AxisRef)} (hs : s.ValidDims m)
    (h : (allGather axes).apply s m = .ok t) :
    ∃ A, Spells m s A ∧ t = { s with dims := t.dims } ∧ t.rank = s.rank ∧ t.ValidDims m ∧
      ∀ dim, ∃ x, A dim = t.axesAt dim ++ x := by
  obtain ⟨_, hlen, h⟩ := bind_eq_ok_iff.1 h
  obtain ⟨ds, hds, h⟩ := bind_eq_ok_iff.1 h
  cases h
  obtain ⟨hlength, hdims⟩ := gatherDims_eq_ok hds (checkRank_eq_ok_iff.1 hlen)
  have hlists : ∀ dim, ∃ l, AllValid m l ∧
      (∀ d : DimSharding, s.dims[dim]? = some d → core m d.axes = core m l) ∧
      ∃ x, l = ({ s with dims := ds } : TensorSharding).axesAt dim ++ x := by
    intro dim
    cases hdim : ds[dim]? with
    | none =>
      have hnone : s.dims[dim]? = none := by
        rw [List.getElem?_eq_none_iff] at hdim ⊢
        omega
      exact ⟨[], by simp [AllValid], by simp [hnone], [], by simp [axesAt, hdim]⟩
    | some e =>
      obtain ⟨d, suffix, hd, -, hremove⟩ := hdims dim e hdim
      obtain ⟨x, hx, hcore⟩ := exists_removed (hs d (List.mem_of_getElem? hd)) hremove
      refine ⟨_, hx, fun d' hd' => ?_, x, by rw [axesAt_eq hdim]⟩
      rw [hd] at hd'
      cases hd'
      exact hcore.symm
  choose A hvalid hcore hx using hlists
  refine ⟨A, ⟨fun dim d hd => hs d (List.mem_of_getElem? hd), hvalid, hcore⟩, rfl, hlength,
    fun e he => ?_, hx⟩
  obtain ⟨dim, hdim⟩ := List.getElem?_of_mem he
  obtain ⟨x, hAx⟩ := hx dim
  have hvdim := hAx ▸ hvalid dim
  rw [axesAt_eq hdim] at hvdim
  exact (allValid_append.1 hvdim).1

end gather

end Collective
end MeshSharding
