import MeshSharding.Proofs.Collective.Outcome

/-! The order of moves. A move reads and writes its source and its target only, so moves that
have no dimension in common lead to the same sharding in every order. -/
namespace MeshSharding

open AxisList

variable {m : Mesh} {c : Collective} {s t u : TensorSharding} {a b move : Move}

namespace Move

/-- No dimension is the source or the target of both moves. -/
def Separate (a b : Move) : Prop :=
  a.source ≠ b.source ∧ a.source ≠ b.target ∧ a.target ≠ b.source ∧ a.target ≠ b.target

instance : DecidableRel Separate := fun _ _ => inferInstanceAs (Decidable (_ ∧ _))

theorem Separate.symm (h : Separate a b) : Separate b a :=
  ⟨h.1.symm, h.2.2.1.symm, h.2.1.symm, h.2.2.2.symm⟩

end Move

theorem TensorSharding.modifyDim_comm {i j : Nat} (h : i ≠ j) (f g : DimSharding → DimSharding) :
    (s.modifyDim i f).modifyDim j g = (s.modifyDim j g).modifyDim i f := by
  simp only [modifyDim, TensorSharding.mk.injEq, and_true, true_and]
  exact List.modify_modify_ne f g _ h

namespace Collective

theorem axes_ne_nil_of_applyMove (h : c.applyMove m s move = .ok t) : move.axes ≠ [] := by
  intro hnil
  unfold applyMove at h
  split at h
  · split at h
    · cases h
    · rw [if_pos (by simp [hnil])] at h
      cases h
  · cases h

/-- When a move can be made; the collective that it belongs to does not matter. -/
theorem applyMove_eq_ok_iff : c.applyMove m s move = .ok t ↔
    ∃ d e kept, s.dims[move.source]? = some d ∧ s.dims[move.target]? = some e ∧
      move.source ≠ move.target ∧ move.axes ≠ [] ∧
      removeSuffix m d.axes move.axes = .ok (some kept) ∧
      t = moved s move kept (mergeAdjacent m (e.axes ++ move.axes)) := by
  constructor
  · intro h
    obtain ⟨d, e, kept, hd, he, hne, hremove, ht⟩ := applyMove_eq_ok h
    exact ⟨d, e, kept, hd, he, hne, axes_ne_nil_of_applyMove h, hremove, ht⟩
  · rintro ⟨d, e, kept, hd, he, hne, hnil, hremove, rfl⟩
    exact applyMove_eq hd he hne hnil (takeOff_eq_ok_iff.2 hremove)

/-- A move leaves the other dimensions as they are. -/
theorem dims_moved_of_ne {dim : Nat} (hsource : dim ≠ move.source) (htarget : dim ≠ move.target)
    (source target : List AxisRef) : (moved s move source target).dims[dim]? = s.dims[dim]? := by
  rw [moved, TensorSharding.dims_modifyDim_of_ne htarget,
    TensorSharding.dims_modifyDim_of_ne hsource]

theorem dims_moved_source {d : DimSharding} (hd : s.dims[move.source]? = some d)
    (hne : move.source ≠ move.target) (source target : List AxisRef) :
    (moved s move source target).dims[move.source]? = some { d with axes := source } := by
  rw [moved, TensorSharding.dims_modifyDim_of_ne hne, TensorSharding.dims_modifyDim hd]

theorem dims_moved_target {e : DimSharding} (he : s.dims[move.target]? = some e)
    (hne : move.source ≠ move.target) (source target : List AxisRef) :
    (moved s move source target).dims[move.target]? = some { e with axes := target } := by
  rw [moved, TensorSharding.dims_modifyDim]
  rw [TensorSharding.dims_modifyDim_of_ne hne.symm, he]

theorem moved_comm (h : a.Separate b) (sourceA targetA sourceB targetB : List AxisRef) :
    moved (moved s a sourceA targetA) b sourceB targetB
      = moved (moved s b sourceB targetB) a sourceA targetA := by
  obtain ⟨hss, hst, hts, htt⟩ := h
  unfold moved
  rw [TensorSharding.modifyDim_comm hts, TensorSharding.modifyDim_comm hss,
    TensorSharding.modifyDim_comm htt, TensorSharding.modifyDim_comm hst]

/-- Separate moves can be made in the other order too. -/
theorem applyMove_comm (hab : a.Separate b) (ha : c.applyMove m s a = .ok u)
    (hb : c.applyMove m u b = .ok t) :
    ∃ v, c.applyMove m s b = .ok v ∧ c.applyMove m v a = .ok t := by
  obtain ⟨d, e, kept, hd, he, hne, hnil, hremove, rfl⟩ := applyMove_eq_ok_iff.1 ha
  obtain ⟨d', e', kept', hd', he', hne', hnil', hremove', rfl⟩ := applyMove_eq_ok_iff.1 hb
  obtain ⟨hss, hst, hts, htt⟩ := hab
  rw [dims_moved_of_ne hss.symm hts.symm] at hd'
  rw [dims_moved_of_ne hst.symm htt.symm] at he'
  refine ⟨_, applyMove_eq_ok_iff.2 ⟨d', e', kept', hd', he', hne', hnil', hremove', rfl⟩,
    applyMove_eq_ok_iff.2 ⟨d, e, kept, ?_, ?_, hne, hnil, hremove, ?_⟩⟩
  · rw [dims_moved_of_ne hss hst, hd]
  · rw [dims_moved_of_ne hts htt, he]
  · exact moved_comm ⟨hss, hst, hts, htt⟩ _ _ _ _

theorem foldlM_applyMove_perm {moves moves' : List Move} (hperm : moves.Perm moves')
    (hsep : moves.Pairwise Move.Separate) (h : moves.foldlM (c.applyMove m) s = .ok t) :
    moves'.foldlM (c.applyMove m) s = .ok t := by
  induction hperm generalizing s with
  | nil => exact h
  | cons move _ ih =>
    rw [List.foldlM_cons] at h ⊢
    obtain ⟨u, hmove, h⟩ := bind_eq_ok_iff.1 h
    exact bind_eq_ok_iff.2 ⟨u, hmove, ih (List.pairwise_cons.1 hsep).2 h⟩
  | swap a b rest =>
    simp only [List.foldlM_cons, bind_eq_ok_iff] at h ⊢
    obtain ⟨u, hb, v, ha, h⟩ := h
    have hba : b.Separate a := (List.pairwise_cons.1 hsep).1 a List.mem_cons_self
    obtain ⟨w, ha', hb'⟩ := applyMove_comm hba hb ha
    exact ⟨w, ha', v, hb', h⟩
  | trans hperm _ ih ih' =>
    exact ih' ((hperm.pairwise_iff Move.Separate.symm).1 hsep) (ih hsep h)

theorem foldlM_applyMove_congr {moves : List Move} (c' : Collective)
    (h : moves.foldlM (c.applyMove m) s = .ok t) : moves.foldlM (c'.applyMove m) s = .ok t := by
  induction moves generalizing s with
  | nil => exact h
  | cons move rest ih =>
    rw [List.foldlM_cons] at h ⊢
    obtain ⟨u, hmove, h⟩ := bind_eq_ok_iff.1 h
    exact bind_eq_ok_iff.2 ⟨u, applyMove_eq_ok_iff.2 (applyMove_eq_ok_iff.1 hmove), ih h⟩

/-- Moves without a common dimension may be listed in any order. -/
theorem apply_allToAll_perm {moves moves' : List Move} (hperm : moves.Perm moves')
    (hsep : moves.Pairwise Move.Separate) (h : (allToAll moves).apply s m = .ok t) :
    (allToAll moves').apply s m = .ok t :=
  foldlM_applyMove_congr _ (foldlM_applyMove_perm hperm hsep h)

end Collective
end MeshSharding
