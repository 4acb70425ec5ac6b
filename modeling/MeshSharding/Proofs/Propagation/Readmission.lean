import MeshSharding.Proofs.AxisList.Meet
import MeshSharding.Proofs.Propagation.Origins
import MeshSharding.Proofs.Propagation.Refinement
import MeshSharding.Proofs.Propagation.UserAxes

/-! Admission at a level settles it. A dimension that has been reconciled stays as it is when the
later ones are, since these take only axes of the user, which are free of his other axes, and give
up none that they have. So the same sharding of the user finds nothing to do a second time. -/
namespace MeshSharding

open AxisList

namespace AxisList

/-- What overlaps a major part of a list overlaps the list. -/
theorem overlapsAny_of_isPrefix {m : Mesh} {a : AxisRef} {part axes : List AxisRef}
    (ha : a.Valid m) (hpart : AllValid m part) (haxes : AllValid m axes)
    (h : isPrefix m part axes = true) (hov : overlapsAny m a part = true) :
    overlapsAny m a axes = true := by
  by_contra hnot
  rw [Bool.not_eq_true, overlapsAny, List.any_eq_false, not_overlaps_iff ha haxes] at hnot
  obtain ⟨b, hb, hov⟩ := List.any_eq_true.1 hov
  refine (not_overlaps_iff ha hpart).2 (fun name c hc => ?_) b hb hov
  have hle := coverage_le_of_isPrefix hpart haxes h name c
  have hzero := hnot name c hc
  omega

end AxisList

namespace TensorSharding

theorem modifyDim_eq_self {s : TensorSharding} {dim : Nat} {d : DimSharding}
    (hd : s.dims[dim]? = some d) {f : DimSharding → DimSharding} (hf : f d = d) :
    s.modifyDim dim f = s := by
  have hdims : s.dims.modify dim f = s.dims := by
    refine List.ext_getElem? fun j => ?_
    rw [List.getElem?_modify]
    by_cases hj : dim = j
    · subst hj
      simp [hd, hf]
    · simp [hj]
  rw [modifyDim, hdims]

end TensorSharding

namespace Sorted

@[simp] theorem put_put {β : Type} (key : Nat) (first last : β) (entries : List (Nat × β)) :
    put key last (put key first entries) = put key last entries := by
  induction entries with
  | nil => simp [put]
  | cons entry rest ih =>
    rcases Nat.lt_trichotomy key entry.1 with hlt | heq | hlt
    · simp [put, hlt]
    · simp [put, heq]
    · have hnot : ¬ key < entry.1 := by omega
      have hne : key ≠ entry.1 := by omega
      simp [put, hnot, hne, ih]

end Sorted

namespace Recorder

variable {r : Recorder} {value : Nat} {origins : List AxisOrigin} {l l' axes : List AxisRef}

/-- Axes that have an origin get no further one. -/
theorem foldl_addOwn_of_subset (h : l ⊆ origins.map (·.axis)) :
    l.foldl (addOwn value) origins = origins := by
  induction l with
  | nil => rfl
  | cons a rest ih =>
    obtain ⟨ha, hrest⟩ := List.cons_subset.1 h
    obtain ⟨o, ho, hoa⟩ := List.mem_map.1 ha
    have hknown : addOwn value origins a = origins :=
      if_pos (List.any_eq_true.2 ⟨o, ho, decide_eq_true hoa⟩)
    rw [List.foldl_cons, hknown, ih hrest]

theorem addUserAxes_append (r : Recorder) (value : Nat) (l l' : List AxisRef) :
    (r.addUserAxes value l).addUserAxes value l' = r.addUserAxes value (l ++ l') := by
  by_cases hr : r.recordsOrigins = true
  · by_cases hl : l = []
    · simp [addUserAxes, hl]
    · by_cases hl' : l' = []
      · simp [addUserAxes, hl']
      · have horigins := originsOf_addUserAxes hr value l value
        rw [if_pos rfl] at horigins
        rw [addUserAxes, if_pos ⟨by simpa using hr, hl'⟩, horigins, addUserAxes, if_pos ⟨hr, hl⟩,
          addUserAxes, if_pos ⟨hr, by simp [hl]⟩, List.foldl_append]
        simp [setOrigins]
  · simp [addUserAxes, hr]

theorem addUserAxes_append_of_subset (h : l' ⊆ l) :
    r.addUserAxes value (l ++ l') = r.addUserAxes value l := by
  obtain ⟨extra, hextra, -, hall⟩ := exists_foldl_addOwn value l (r.record.originsOf value)
  have hfold : (l ++ l').foldl (addOwn value) (r.record.originsOf value)
      = l.foldl (addOwn value) (r.record.originsOf value) := by
    rw [List.foldl_append, hextra, foldl_addOwn_of_subset (List.Subset.trans h hall)]
  by_cases hl : l = []
  · subst hl
    rw [List.subset_nil.1 h, List.append_nil]
  · simp only [addUserAxes, hfold, ne_eq, List.append_eq_nil_iff, hl, false_and]

/-- What is on record for a value stays on record when further axes of it are recorded. -/
theorem addUserAxes_addUserAxes (h : r.addUserAxes value l = r) (l' : List AxisRef) :
    (r.addUserAxes value l').addUserAxes value l = r.addUserAxes value l' :=
  calc (r.addUserAxes value l').addUserAxes value l
      = ((r.addUserAxes value l).addUserAxes value l').addUserAxes value l := by rw [h]
    _ = r.addUserAxes value ((l ++ l') ++ l) := by
        rw [addUserAxes_append, addUserAxes_append, List.append_assoc]
    _ = r.addUserAxes value (l ++ l') :=
        addUserAxes_append_of_subset (List.subset_append_left l l')
    _ = r.addUserAxes value l' := by rw [← addUserAxes_append, h]

theorem addUserAxes_self (r : Recorder) (value : Nat) (l : List AxisRef) :
    (r.addUserAxes value l).addUserAxes value l = r.addUserAxes value l := by
  rw [addUserAxes_append, addUserAxes_append_of_subset (List.Subset.refl l)]

end Recorder

namespace Admission

open TensorSharding

variable {m : Mesh} {level : Option Nat} {value dim i : Nat} {r : Recorder}
  {user current : TensorSharding} {u v d : DimSharding} {users : List DimSharding} {a : AxisRef}

/-- Nothing is left to be done for a dimension of the user, who has `u` there and the sharding `d`:
it is hidden, its axes have been taken and are on record, or they are barred by others. -/
inductive Stable (m : Mesh) (level : Option Nat) (value dim : Nat) (u d : DimSharding)
    (s : TensorSharding) (r : Recorder) : Prop
  | hidden (h : isHidden level u = true)
  | taken (haxes : d.axes = u.axes) (hclosed : d.closed = u.closed)
      (hfree : ∀ a ∈ u.axes, overlapsAny m a (s.axesOutside dim) = false)
      (hrecord : r.addUserAxes value u.axes = r)
  | barred (h : (∃ a ∈ u.axes, overlapsAny m a (s.axesOutside dim) = true) ∨
      isPrefix m d.axes u.axes = false) (hclosed : u.closed = true → d.closed = true)

section dims

/-- Admission of a dimension for which nothing is left to be done does nothing. -/
theorem Stable.admitDim_eq (hd : current.dims[dim]? = some d)
    (h : Stable m level value dim u d current r) :
    admitDim m level value current r dim u = (current, r) := by
  unfold admitDim
  rw [hd]
  dsimp only
  cases h with
  | hidden h => rw [if_pos h]
  | taken haxes hclosed hfree hrecord =>
    have hused : (u.axes.any fun a => overlapsAny m a (current.axesOutside dim)) = false := by
      simpa [List.any_eq_false] using hfree
    have hsame : current.modifyDim dim (fun d => { d with axes := u.axes, closed := u.closed })
        = current := modifyDim_eq_self hd (by rw [← haxes, ← hclosed])
    rw [hused, haxes, isPrefix_self, hsame, hrecord]
    simp
  | barred h hclosed =>
    have hguard : (!(u.axes.any fun a => overlapsAny m a (current.axesOutside dim)) &&
        isPrefix m d.axes u.axes) = false := by
      rcases h with ⟨a, ha, hov⟩ | h
      · rw [List.any_eq_true.2 ⟨a, ha, hov⟩]
        rfl
      · rw [h, Bool.and_false]
    rw [hguard]
    by_cases hu : u.closed = true
    · have hsame : current.modifyDim dim (fun d => { d with closed := true }) = current :=
        modifyDim_eq_self hd (by rw [← hclosed hu])
      simp [hu, hsame]
    · simp [hu]

/-- Admission of a dimension leaves nothing to be done for it. -/
theorem stable_admitDim (m : Mesh) (level : Option Nat) (value : Nat) (r : Recorder)
    (u : DimSharding) (hd : current.dims[dim]? = some d) :
    ∃ e, (admitDim m level value current r dim u).1.dims[dim]? = some e ∧
      Stable m level value dim u e (admitDim m level value current r dim u).1
        (admitDim m level value current r dim u).2 := by
  unfold admitDim
  rw [hd]
  dsimp only
  split
  · rename_i hhidden
    exact ⟨d, hd, .hidden hhidden⟩
  · split
    · rename_i hguard
      simp only [Bool.and_eq_true, Bool.not_eq_true', List.any_eq_false] at hguard
      refine ⟨_, dims_modifyDim hd _, .taken rfl rfl ?_ (r.addUserAxes_self value u.axes)⟩
      rw [axesOutside_modifyDim]
      simpa using hguard.1
    · rename_i hguard
      have hbarred : (∃ a ∈ u.axes, overlapsAny m a (current.axesOutside dim) = true) ∨
          isPrefix m d.axes u.axes = false := by
        by_cases hused : (u.axes.any fun a => overlapsAny m a (current.axesOutside dim)) = true
        · exact .inl (List.any_eq_true.1 hused)
        · rw [Bool.not_eq_true] at hused
          rw [hused] at hguard
          exact .inr (by simpa using hguard)
      split
      · refine ⟨_, dims_modifyDim hd _, .barred ?_ fun _ => rfl⟩
        rwa [axesOutside_modifyDim]
      · rename_i hclosed
        exact ⟨d, hd, .barred hbarred fun h => absurd h hclosed⟩

theorem recorder_admitDim (m : Mesh) (level : Option Nat) (value : Nat) (current : TensorSharding)
    (r : Recorder) (dim : Nat) (u : DimSharding) :
    (admitDim m level value current r dim u).2 = r ∨
      (admitDim m level value current r dim u).2 = r.addUserAxes value u.axes := by
  unfold admitDim
  cases current.dims[dim]? with
  | none => exact .inl rfl
  | some d =>
    dsimp only
    split
    · exact .inl rfl
    · split
      · exact .inr rfl
      · split <;> exact .inl rfl

theorem mem_axesOutside_modifyDim {s : TensorSharding} {f : DimSharding → DimSharding}
    (hd : s.dims[dim]? = some d) (ha : a ∈ (s.modifyDim dim f).axesOutside i) :
    a ∈ s.axesOutside i ∨ a ∈ (f d).axes := by
  rcases mem_axesOutside.1 ha with ⟨j, hj, e, he, hae⟩ | ha
  · by_cases hdim : j = dim
    · subst hdim
      rw [dims_modifyDim hd] at he
      cases he
      exact .inr hae
    · rw [dims_modifyDim_of_ne hdim] at he
      exact .inl (mem_axesOutside.2 (.inl ⟨j, hj, e, he, hae⟩))
  · exact .inl (mem_axesOutside.2 (.inr ha))

/-- An admission puts in the way of other dimensions at most the axes of the user. -/
theorem mem_axesOutside_admitDim
    (ha : a ∈ (admitDim m level value current r dim u).1.axesOutside i) (hi : i ≠ dim) :
    a ∈ current.axesOutside i ∨ a ∈ u.axes := by
  cases hd : current.dims[dim]? with
  | none =>
    rw [admitDim_of_none hd] at ha
    exact .inl ha
  | some d =>
    rcases admitDim_cases m level value r u hd with h | ⟨f, hf, h⟩
    · exact .inl (h ▸ ha)
    · rw [h] at ha
      rcases mem_axesOutside_modifyDim hd ha with ha | ha
      · exact .inl ha
      · rcases hf.axes_eq with haxes | haxes
        · exact .inl (mem_axesOutside.2 (.inl ⟨dim, hi.symm, d, hd, haxes ▸ ha⟩))
        · exact .inr (haxes ▸ ha)

/-- What an admission takes out of the way of other dimensions stands there in larger axes. -/
theorem overlapsAny_axesOutside_admitDim (hcurrent : current.Valid m) (hu : AllValid m u.axes)
    (ha : a.Valid m) (hov : overlapsAny m a (current.axesOutside i) = true) :
    overlapsAny m a ((admitDim m level value current r dim u).1.axesOutside i) = true := by
  cases hd : current.dims[dim]? with
  | none => rwa [admitDim_of_none hd]
  | some d =>
    rcases admitDim_cases m level value r u hd with h | ⟨f, hf, h⟩
    · rwa [h]
    · obtain ⟨b, hb, hab⟩ := List.any_eq_true.1 hov
      rw [h]
      rcases mem_axesOutside.1 hb with ⟨j, hj, e, he, hbe⟩ | hb
      · by_cases hdim : j = dim
        · subst hdim
          cases hd.symm.trans he
          have hvalid := hcurrent.allValid_axes hd
          have hnext : AllValid m (f d).axes := by
            rcases hf.axes_eq with haxes | haxes
            · exact haxes ▸ hvalid
            · exact haxes ▸ hu
          obtain ⟨b', hb', hab'⟩ := List.any_eq_true.1 <|
            overlapsAny_of_isPrefix ha hvalid hnext hf.isPrefix (List.any_eq_true.2 ⟨b, hbe, hab⟩)
          exact List.any_eq_true.2
            ⟨b', mem_axesOutside.2 (.inl ⟨j, hj, f d, dims_modifyDim hd f, hb'⟩), hab'⟩
        · refine List.any_eq_true.2 ⟨b, mem_axesOutside.2 (.inl ⟨j, hj, e, ?_, hbe⟩), hab⟩
          rwa [dims_modifyDim_of_ne hdim]
      · exact List.any_eq_true.2 ⟨b, mem_axesOutside.2 (.inr hb), hab⟩

/-- What is settled for a dimension stays so when another one is admitted. -/
theorem Stable.admitDim (h : Stable m level value i v d current r) (huser : user.Valid m)
    (hcurrent : current.Valid m) (hv : user.dims[i]? = some v) (hu : user.dims[dim]? = some u)
    (hi : i ≠ dim) :
    Stable m level value i v d (admitDim m level value current r dim u).1
      (admitDim m level value current r dim u).2 := by
  have hvalid := huser.allValid_axes hv
  cases h with
  | hidden h => exact .hidden h
  | taken haxes hclosed hfree hrecord =>
    refine .taken haxes hclosed (fun a ha => List.any_eq_false.2 fun b hb hov => ?_) ?_
    · rcases mem_axesOutside_admitDim hb hi with hb | hb
      · exact List.any_eq_false.1 (hfree a ha) b hb hov
      · have happ := (valid_iff hv).1 huser
        rw [allValid_append] at happ
        have hout := ((apart_append_iff happ.1.1 happ.1.2).1 happ.2).2.2 a ha
        exact List.any_eq_false.1 hout b (mem_axesOutside.2 (.inl ⟨dim, hi.symm, u, hu, hb⟩)) hov
    · rcases recorder_admitDim m level value current r dim u with hr | hr
      · rw [hr, hrecord]
      · rw [hr, Recorder.addUserAxes_addUserAxes hrecord]
  | barred h hclosed =>
    refine .barred (h.imp (fun ⟨a, ha, hov⟩ => ⟨a, ha, ?_⟩) id) hclosed
    exact overlapsAny_axesOutside_admitDim hcurrent (huser.allValid_axes hu) (hvalid a ha) hov

end dims

section run

theorem Stable.admitDims (h : Stable m level value i v d current r) (huser : user.Valid m)
    (hcurrent : current.Valid m) (hv : user.dims[i]? = some v)
    (husers : ∀ (j : Nat) (u : DimSharding), users[j]? = some u → user.dims[dim + j]? = some u)
    (hi : i < dim) :
    Stable m level value i v d (admitDims m level value dim users current r).1
      (admitDims m level value dim users current r).2 := by
  induction users generalizing dim current r with
  | nil => exact h
  | cons u rest ih =>
    have hu : user.dims[dim]? = some u := husers 0 u rfl
    obtain ⟨hvalid, hapart⟩ := apart_dims huser u (List.mem_of_getElem? hu)
    refine ih (h.admitDim huser hcurrent hv hu (Nat.ne_of_lt hi))
      (admits_admitDim level value r hcurrent hvalid hapart dim).valid (fun j u hj => ?_)
      (Nat.lt_succ_of_lt hi)
    rw [Nat.add_assoc, Nat.add_comm 1]
    exact husers (j + 1) u hj

/-- Admission of all dimensions leaves nothing to be done for any of them. -/
theorem stable_admitDims (huser : user.Valid m) (hcurrent : current.Valid m)
    (husers : ∀ (j : Nat) (u : DimSharding), users[j]? = some u → user.dims[dim + j]? = some u)
    (hu : users[i]? = some u) (hd : current.dims[dim + i]? = some d) :
    ∃ e, (admitDims m level value dim users current r).1.dims[dim + i]? = some e ∧
      Stable m level value (dim + i) u e (admitDims m level value dim users current r).1
        (admitDims m level value dim users current r).2 := by
  induction users generalizing dim current r i with
  | nil => cases hu
  | cons first rest ih =>
    have hfirst : user.dims[dim]? = some first := husers 0 first rfl
    have hrest : ∀ (j : Nat) (u : DimSharding), rest[j]? = some u →
        user.dims[dim + 1 + j]? = some u := fun j u hj => by
      rw [Nat.add_assoc, Nat.add_comm 1]
      exact husers (j + 1) u hj
    obtain ⟨hvalid, hapart⟩ := apart_dims huser first (List.mem_of_getElem? hfirst)
    have hnext := (admits_admitDim level value r hcurrent hvalid hapart dim).valid
    rw [admitDims]
    cases i with
    | zero =>
      cases hu
      simp only [Nat.add_zero] at hd ⊢
      obtain ⟨e, he, hstable⟩ := stable_admitDim m level value r u hd
      refine ⟨e, ?_, hstable.admitDims huser hnext hfirst hrest (Nat.lt_succ_self dim)⟩
      rw [dims_admitDims_of_lt (Nat.lt_succ_self dim), he]
    | succ i =>
      have hindex : dim + (i + 1) = dim + 1 + i := by omega
      rw [hindex] at hd ⊢
      refine ih hnext hrest hu ?_
      rw [dims_admitDim_of_ne (by omega), hd]

theorem admitDims_eq_self (h : ∀ (j : Nat) (u : DimSharding), users[j]? = some u →
    admitDim m level value current r (dim + j) u = (current, r)) :
    admitDims m level value dim users current r = (current, r) := by
  induction users generalizing dim with
  | nil => rfl
  | cons u rest ih =>
    have hfirst : admitDim m level value current r dim u = (current, r) := h 0 u rfl
    rw [admitDims, hfirst]
    refine ih fun j u hj => ?_
    rw [Nat.add_assoc, Nat.add_comm 1]
    exact h (j + 1) u hj

theorem admitDims_idem (huser : user.Valid m) (hcurrent : current.Valid m)
    (hrank : current.rank = user.rank) (level : Option Nat) (value : Nat) (r : Recorder) :
    admitDims m level value 0 user.dims (admitDims m level value 0 user.dims current r).1
      (admitDims m level value 0 user.dims current r).2
      = admitDims m level value 0 user.dims current r := by
  refine admitDims_eq_self fun i u hu => ?_
  obtain ⟨d, hd⟩ : ∃ d, current.dims[0 + i]? = some d := by
    have hi : i < current.rank := hrank ▸ (List.getElem?_eq_some_iff.1 hu).1
    rw [Nat.zero_add]
    exact ⟨_, List.getElem?_eq_getElem hi⟩
  obtain ⟨e, he, hstable⟩ := stable_admitDims huser hcurrent
    (fun j u hj => by rwa [Nat.zero_add]) hu hd
  exact hstable.admitDim_eq he

/-- Admission is idempotent: the sharding of the user is admitted into what it has become at a level
without any effect there, and without a further origin on record. -/
theorem admitSharding_idem {shape : Shape} {start : Option TensorSharding}
    (huser : user.validate m shape = .ok ())
    (hstart : ∀ s ∈ start, s.meshName = user.meshName → ∃ shape, s.validate m shape = .ok ())
    (level : Option Nat) (value : Nat) (r : Recorder) :
    admitSharding m level value user (some (admitSharding m level value user start r).1)
      (admitSharding m level value user start r).2 = admitSharding m level value user start r := by
  have hvalid := (validate_eq_ok_iff.1 huser).2
  have hadmitted : ∀ s : TensorSharding, s.meshName = user.meshName → s.rank = user.rank →
      s.Valid m → admitSharding m level value user
        (some (admitDims m level value 0 user.dims s r).1)
        (admitDims m level value 0 user.dims s r).2 = admitDims m level value 0 user.dims s r := by
    intro s hname hrank hs
    have hadmits := admits_admitDims level value r hs (apart_dims hvalid) 0
    rw [admitSharding]
    rw [if_pos ⟨hadmits.meshName.trans hname, hadmits.rank.trans hrank⟩]
    exact admitDims_idem hvalid hs hrank level value r
  cases start with
  | none => exact hadmitted _ rfl (List.length_map ..) (valid_unadmitted hvalid)
  | some s =>
    by_cases hsame : s.meshName = user.meshName ∧ s.rank = user.rank
    · obtain ⟨_, hs⟩ := hstart s rfl hsame.1
      have hfirst : admitSharding m level value user (some s) r
          = admitDims m level value 0 user.dims s r := if_pos hsame
      rw [hfirst]
      exact hadmitted s hsame.1 hsame.2 (validate_eq_ok_iff.1 hs).2
    · -- a sharding over another mesh or of another rank is kept both times
      have hkept : ∀ r, admitSharding m level value user (some s) r = (s, r) :=
        fun _ => if_neg hsame
      rw [hkept, hkept]

/-- The first dimension is barred by the third one and closed, the second one takes the axis of the
user, and the third one is hidden. -/
theorem admitSharding_idem_grid :
    let m := Mesh.grid 4 2 (Nat.zero_lt_succ 3) Nat.two_pos
    let user : TensorSharding := .ofDims "mesh"
      [⟨[.sub "x" 1 2], true, none⟩, ⟨[.full "y"], false, some 0⟩, ⟨[.sub "x" 2 2], false, some 1⟩]
    let start : TensorSharding := .ofDims "mesh"
      [.ofAxes [] false, .ofAxes [] false, .ofAxes [.sub "x" 1 2] false]
    let next := admitSharding m (some 0) 0 user (some start) (.start true false)
    user.validate m [8, 8, 8] = .ok () ∧ start.validate m [8, 8, 8] = .ok () ∧
      next.1.dims = [.ofAxes [] true, .ofAxes [.full "y"] false, .ofAxes [.sub "x" 1 2] false] ∧
      next.2.record.origins = [(0, [⟨.full "y", 0⟩])] ∧
      admitSharding m (some 0) 0 user (some next.1) next.2 = next := by
  intro m user start next
  have huser : user.validate m [8, 8, 8] = .ok () := eq_ok_of_toOption (by decide +kernel)
  have hstart : start.validate m [8, 8, 8] = .ok () := eq_ok_of_toOption (by decide +kernel)
  refine ⟨huser, hstart, by decide +kernel, by decide +kernel, ?_⟩
  exact admitSharding_idem huser (fun s hs _ => ⟨[8, 8, 8], by cases hs; exact hstart⟩) (some 0) 0
    (.start true false)

end run

end Admission
end MeshSharding
