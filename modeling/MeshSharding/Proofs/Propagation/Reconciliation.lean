import MeshSharding.Proofs.Propagation.Admission

/-! Reconciliation of the dimensions of the user with what propagation has assigned. A dimension
stays as it is, is closed, or takes the axes of the user, of which its own ones have to be a
major part. Such a part may end within a reference at a place that no window can begin at. -/
namespace MeshSharding
namespace Admission

open AxisList

variable {m : Mesh} {level : Option Nat} {value : Nat} {r : Recorder}
  {user current : TensorSharding} {u d e : DimSharding} {users : List DimSharding}

/-- What may become of the dimension `d` by reconciliation with `u`. -/
inductive Reconciles (m : Mesh) (u d : DimSharding) : DimSharding → Prop
  | kept : Reconciles m u d d
  | closed (h : u.closed = true) : Reconciles m u d { d with closed := true }
  | taken (h : isPrefix m d.axes u.axes = true) :
      Reconciles m u d { d with axes := u.axes, closed := u.closed }

theorem Reconciles.isPrefix (h : Reconciles m u d e) : isPrefix m d.axes e.axes = true := by
  cases h with
  | kept => exact isPrefix_self ..
  | closed _ => exact isPrefix_self ..
  | taken h => exact h

theorem Reconciles.axes_eq (h : Reconciles m u d e) : e.axes = d.axes ∨ e.axes = u.axes := by
  cases h with
  | kept => exact .inl rfl
  | closed _ => exact .inl rfl
  | taken _ => exact .inr rfl

section dims

variable {dim : Nat}

/-- Admission of a dimension changes at most that dimension. -/
theorem admitDim_cases (m : Mesh) (level : Option Nat) (value : Nat) (r : Recorder)
    (u : DimSharding) (hd : current.dims[dim]? = some d) :
    (admitDim m level value current r dim u).1 = current ∨
      ∃ f : DimSharding → DimSharding, Reconciles m u d (f d) ∧
        (admitDim m level value current r dim u).1 = current.modifyDim dim f := by
  unfold admitDim
  rw [hd]
  dsimp only
  split
  · exact .inl rfl
  · split
    · rename_i hguard
      rw [Bool.and_eq_true] at hguard
      exact .inr ⟨_, .taken hguard.2, rfl⟩
    · split
      · rename_i hclosed
        exact .inr ⟨_, .closed hclosed, rfl⟩
      · exact .inl rfl

theorem admitDim_of_none (hd : current.dims[dim]? = none) :
    admitDim m level value current r dim u = (current, r) := by
  unfold admitDim
  rw [hd]

theorem exists_reconciles_admitDim (hd : current.dims[dim]? = some d) :
    ∃ e, (admitDim m level value current r dim u).1.dims[dim]? = some e ∧ Reconciles m u d e := by
  rcases admitDim_cases m level value r u hd with h | ⟨f, hf, h⟩
  · exact ⟨d, by rw [h, hd], .kept⟩
  · exact ⟨f d, by rw [h, TensorSharding.dims_modifyDim hd], hf⟩

theorem dims_admitDim_of_ne {i : Nat} (hi : i ≠ dim) :
    (admitDim m level value current r dim u).1.dims[i]? = current.dims[i]? := by
  cases hd : current.dims[dim]? with
  | none => rw [admitDim_of_none hd]
  | some d =>
    rcases admitDim_cases m level value r u hd with h | ⟨f, -, h⟩
    · rw [h]
    · rw [h, TensorSharding.dims_modifyDim_of_ne hi]

/-- Dimensions before the ones that are admitted are not touched. -/
theorem dims_admitDims_of_lt {i : Nat} (hi : i < dim) :
    (admitDims m level value dim users current r).1.dims[i]? = current.dims[i]? := by
  induction users generalizing dim current r with
  | nil => rfl
  | cons u rest ih =>
    rw [admitDims, ih (Nat.lt_succ_of_lt hi), dims_admitDim_of_ne (Nat.ne_of_lt hi)]

theorem exists_reconciles_admitDims {i : Nat} (hd : current.dims[dim + i]? = some d)
    (hu : users[i]? = some u) :
    ∃ e, (admitDims m level value dim users current r).1.dims[dim + i]? = some e ∧
      Reconciles m u d e := by
  induction users generalizing dim current r i with
  | nil => cases hu
  | cons first rest ih =>
    rw [admitDims]
    cases i with
    | zero =>
      cases hu
      simp only [Nat.add_zero] at hd ⊢
      rw [dims_admitDims_of_lt (Nat.lt_succ_self dim)]
      exact exists_reconciles_admitDim hd
    | succ i =>
      rw [← Nat.add_assoc, Nat.add_right_comm] at hd ⊢
      refine ih ?_ hu
      rw [dims_admitDim_of_ne (by omega), hd]

end dims

/-- Every dimension of a sharding over the mesh and of the rank of the user's is reconciled with
that of the user. -/
theorem exists_reconciles_admitSharding (hname : current.meshName = user.meshName)
    (hrank : current.rank = user.rank) (m : Mesh) (level : Option Nat) (value : Nat)
    (r : Recorder) {i : Nat} (hd : current.dims[i]? = some d) :
    ∃ u e, user.dims[i]? = some u ∧
      (admitSharding m level value user (some current) r).1.dims[i]? = some e ∧
      Reconciles m u d e := by
  have hi : i < user.dims.length := by
    have hlt : i < current.rank := (List.getElem?_eq_some_iff.1 hd).1
    rwa [hrank] at hlt
  have hu := List.getElem?_eq_getElem hi
  obtain ⟨e, he, hreconciles⟩ : ∃ e,
      (admitDims m level value 0 user.dims current r).1.dims[0 + i]? = some e ∧
        Reconciles m user.dims[i] d e :=
    exists_reconciles_admitDims ((Nat.zero_add i).symm ▸ hd) hu
  rw [Nat.zero_add] at he
  refine ⟨_, e, hu, ?_, hreconciles⟩
  unfold admitSharding
  dsimp only
  rw [if_pos ⟨hname, hrank⟩, he]

/-- The axes of a dimension are a major part of those that admission leaves it. They are a part
that can be stripped off exactly if each reference divides the one at its place. -/
theorem isSome_stripPrefix?_admitSharding_iff {shape : Shape}
    (hname : current.meshName = user.meshName) (hu : user.validate m shape = .ok ())
    (hc : current.validate m shape = .ok ()) (level : Option Nat) (value : Nat) (r : Recorder) :
    ∀ (i : Nat) (d : DimSharding), current.dims[i]? = some d →
      ∃ u e, user.dims[i]? = some u ∧
        (admitSharding m level value user (some current) r).1.dims[i]? = some e ∧
        (e.axes = d.axes ∨ e.axes = u.axes) ∧ isPrefix m d.axes e.axes = true ∧
        ((stripPrefix? m e.axes d.axes).isSome ↔
          Divides m (mergeAdjacent m d.axes) (mergeAdjacent m e.axes)) := by
  intro i d hd
  obtain ⟨hurank, huvalid⟩ := TensorSharding.validate_eq_ok_iff.1 hu
  obtain ⟨hcrank, hcvalid⟩ := TensorSharding.validate_eq_ok_iff.1 hc
  obtain ⟨u, e, hu, he, hreconciles⟩ := exists_reconciles_admitSharding hname
    (hcrank.trans hurank.symm) m level value r hd
  refine ⟨u, e, hu, he, hreconciles.axes_eq, hreconciles.isPrefix, ?_⟩
  have haxes : AllValid m e.axes := by
    rcases hreconciles.axes_eq with h | h
    · exact h ▸ hcvalid.allValid_axes hd
    · exact h ▸ huvalid.allValid_axes hu
  rw [isSome_stripPrefix?_iff (hcvalid.allValid_axes hd) haxes, hreconciles.isPrefix]
  simp

/-- The first half of an axis of size 4 gives way to the whole axis, of which it is a part. -/
theorem isSome_stripPrefix?_admitSharding_four :
    let m := Mesh.grid 4 2 (Nat.zero_lt_succ 3) Nat.two_pos
    let user : TensorSharding := .ofDims "mesh" [.ofAxes [.full "x"] true]
    let current : TensorSharding := .ofDims "mesh" [.ofAxes [.sub "x" 1 2] false]
    user.validate m [4] = .ok () ∧ current.validate m [4] = .ok () ∧
      ∃ e, (admitSharding m none 0 user (some current) (.start false false)).1.dims[0]? = some e ∧
        (stripPrefix? m e.axes [.sub "x" 1 2]).isSome := by
  intro m user current
  have hu : user.validate m [4] = .ok () := eq_ok_of_toOption (by decide +kernel)
  have hc : current.validate m [4] = .ok () := eq_ok_of_toOption (by decide +kernel)
  obtain ⟨_, e, -, he, -, -, hiff⟩ := isSome_stripPrefix?_admitSharding_iff
    (show current.meshName = user.meshName from rfl) hu hc none 0 (.start false false) 0 _ rfl
  refine ⟨hu, hc, e, he, hiff.2 ?_⟩
  have hresult : (admitSharding m none 0 user (some current) (.start false false)).1.dims[0]?
      = some (.ofAxes [.full "x"] true) := by decide +kernel
  cases he.symm.trans hresult
  exact divides_cons.2 ⟨⟨2, by decide +kernel⟩, nofun⟩

/-- A part of size 2 of an axis of size 6 gives way to one of size 3, of which it is no part. -/
theorem not_isSome_stripPrefix?_admitSharding_six :
    let m := Mesh.grid 6 2 (Nat.zero_lt_succ 5) Nat.two_pos
    let user : TensorSharding := .ofDims "mesh" [⟨[.sub "x" 1 3], false, some 1⟩]
    let current : TensorSharding := .ofDims "mesh" [.ofAxes [.sub "x" 1 2] false]
    user.validate m [6] = .ok () ∧ current.validate m [6] = .ok () ∧
      (admitSharding m (some 1) 1 user (some current) (.start false false)).1.dims
        = [.ofAxes [.sub "x" 1 3] false] ∧
      stripPrefix? m [.sub "x" 1 3] [.sub "x" 1 2] = none :=
  ⟨eq_ok_of_toOption (by decide +kernel), eq_ok_of_toOption (by decide +kernel),
    by decide +kernel, by decide +kernel⟩

end Admission
end MeshSharding
