import MeshSharding.Proofs.Propagation.Converged
import MeshSharding.Proofs.Propagation.Drawing

/-! Recorded origins. What an update adds to a dimension has been covered by its source, whose
origins account for all that its dimensions cover. So where the user has no windows that meet, an
axis lies within one axis of the user, and the origin that it inherits is a value with that axis. -/
namespace MeshSharding

open AxisList ShardingTable TensorSharding

namespace AxisRef

variable {m : Mesh} {a b x : AxisRef} {name : String} {c : Nat}

/-- They are windows of different axes, or there are places of their axis between them. -/
def Detached (m : Mesh) (a b : AxisRef) : Prop :=
  a.name = b.name → a.nextPreSize m < b.preSize ∨ b.nextPreSize m < a.preSize

theorem overlaps_of_covers (ha : a.covers m name c = true) (hb : b.covers m name c = true) :
    a.overlaps b m = true := by
  simp only [covers, overlaps, decide_eq_true_eq] at *
  exact ⟨ha.1.trans hb.1.symm, by omega, by omega⟩

theorem contains_self (m : Mesh) (a : AxisRef) : a.contains a m = true := by simp [contains]

theorem covers_of_contains (h : b.contains a m = true) (ha : a.covers m name c = true) :
    b.covers m name c = true := by
  simp only [covers, contains, decide_eq_true_eq] at *
  exact ⟨h.1.trans ha.1, by omega, by omega⟩

theorem overlaps_of_contains (h : b.contains a m = true) (ha : a.overlaps x m = true) :
    b.overlaps x m = true := by
  simp only [overlaps, contains, decide_eq_true_eq] at *
  exact ⟨h.1.trans ha.1, by omega, by omega⟩

/-- Windows that are equal or detached do not share a window. If they cover all of it, one that
overlaps it contains it. -/
theorem contains_of_covers {P : AxisRef → Prop} (hupright : ∀ b, P b → b.Upright m)
    (hdetached : ∀ b x, P b → P x → b = x ∨ b.Detached m x)
    (hcovered : ∀ c, a.covers m a.name c = true → ∃ b, P b ∧ b.covers m a.name c = true)
    (hb : P b) (h : b.overlaps a m = true) : b.contains a m = true := by
  have hle := hupright b hb
  -- no other window reaches the places next to `b`
  have hother : ∀ c, a.covers m a.name c = true → b.preSize ≤ c + 1 → c ≤ b.nextPreSize m →
      b.covers m a.name c = true := by
    intro c hc hfirst hlast
    obtain ⟨x, hx, hxc⟩ := hcovered c hc
    rcases hdetached b x hb hx with rfl | hdetached
    · exact hxc
    · simp only [covers, overlaps, decide_eq_true_eq] at hxc h
      have hapart := hdetached (h.1.trans hxc.1.symm)
      unfold Upright at hle
      omega
  have hbegin := hother (b.preSize - 1)
  have hend := hother (b.nextPreSize m)
  simp only [covers, overlaps, contains, Upright, decide_eq_true_eq] at *
  refine ⟨h.1, ?_, ?_⟩
  · by_contra hlt
    have hfirst := (hbegin ⟨trivial, by omega, by omega⟩ (by omega) (by omega)).2
    omega
  · by_contra hlt
    have hlast := (hend ⟨trivial, by omega, by omega⟩ (by omega) (by omega)).2
    omega

end AxisRef

namespace Program

variable {p : Program} {name : String} {m : Mesh} {v : Nat} {a : AxisRef}

/-- The user has sharded a dimension of the value along the axis, over the mesh of that name. -/
def HasUserAxis (p : Program) (name : String) (v : Nat) (a : AxisRef) : Prop :=
  ∃ s, p.sharding? v = some s ∧ s.meshName = name ∧ a ∈ s.dimAxes

/-- The axes over one mesh along which the user has sharded dimensions are equal or detached. -/
def DetachedUsers (p : Program) : Prop :=
  ∀ name m, p.mesh name = .ok m → ∀ v a w b, p.HasUserAxis name v a → p.HasUserAxis name w b →
    a = b ∨ a.Detached m b

/-- The origin has an axis of the user over the mesh of that name that contains the recorded one. -/
def IntroducesOver (p : Program) (name : String) (m : Mesh) (o : AxisOrigin) : Prop :=
  ∃ a, p.HasUserAxis name o.origin a ∧ a.contains o.axis m = true

/-- The user has sharded a dimension of the origin along an axis that contains the recorded one. -/
def Introduces (p : Program) (o : AxisOrigin) : Prop :=
  ∃ s m a, p.sharding? o.origin = some s ∧ p.mesh s.meshName = .ok m ∧ a ∈ s.dimAxes ∧
    a.contains o.axis m = true

theorem HasUserAxis.valid (hvalues : ∀ v ∈ p.values, Import.checkValue p v = .ok ())
    (hm : p.mesh name = .ok m) (h : p.HasUserAxis name v a) : a.Valid m := by
  obtain ⟨s, hs, hname, ha⟩ := h
  rw [← get_table] at hs
  have hvalid := ((sound_table hvalues).valid_of_get hm hs hname).2
  exact hvalid.1 a (List.mem_append_left _ (List.mem_append_left _ ha))

end Program

namespace Recorder

variable {r : Recorder} {m : Mesh} {origins : List AxisOrigin} {a : AxisRef}

theorem originsOf_setOrigins (r : Recorder) (value : Nat) (origins : List AxisOrigin) (v : Nat) :
    (r.setOrigins value origins).record.originsOf v
      = if v = value then origins else r.record.originsOf v := by
  simp only [setOrigins, Provenance.originsOf, Sorted.find?_put]
  split <;> rfl

theorem originsOf_addUserAxes (h : r.recordsOrigins = true) (value : Nat) (axes : List AxisRef)
    (v : Nat) : (r.addUserAxes value axes).record.originsOf v
      = if v = value then axes.foldl (addOwn value) (r.record.originsOf value)
        else r.record.originsOf v := by
  by_cases haxes : axes = []
  · subst haxes
    simp only [addUserAxes, ne_eq, not_true, and_false, if_false, List.foldl_nil]
    split <;> simp [*]
  · rw [addUserAxes, if_pos ⟨h, haxes⟩, originsOf_setOrigins]

theorem originsOf_refine (h : r.recordsOrigins = true) (m : Mesh)
    (operation source target dim : Nat) (before after : List AxisRef) (v : Nat) :
    (r.refine m operation source target dim before after).record.originsOf v
      = if v = target then r.record.originsOf target
          ++ ((stripPrefix? m after before).getD []).map
            (inherited m source (r.record.originsOf source))
        else r.record.originsOf v := by
  rw [← originsOf_setOrigins]
  simp only [refine, addEdge, addOrigins, h, if_true]
  split <;> rfl

@[simp] theorem recordsOrigins_addUserAxes (r : Recorder) (value : Nat) (axes : List AxisRef) :
    (r.addUserAxes value axes).recordsOrigins = r.recordsOrigins := by
  unfold addUserAxes
  split <;> rfl

@[simp] theorem recordsOrigins_refine (r : Recorder) (m : Mesh)
    (operation source target dim : Nat) (before after : List AxisRef) :
    (r.refine m operation source target dim before after).recordsOrigins = r.recordsOrigins := by
  simp only [refine, addEdge, addOrigins]
  split <;> split <;> rfl

@[simp] theorem inherited_axis (m : Mesh) (source : Nat) (origins : List AxisOrigin)
    (a : AxisRef) : (inherited m source origins a).axis = a := by
  unfold inherited
  split <;> rfl

/-- The origin is that of an axis in the source that overlaps, if there is one. -/
theorem exists_origin_inherited (source : Nat) (h : ∃ o ∈ origins, o.axis.overlaps a m = true) :
    ∃ o ∈ origins, o.axis.overlaps a m = true ∧
      (inherited m source origins a).origin = o.origin := by
  unfold inherited
  cases hfind : origins.find? fun o => o.axis.overlaps a m with
  | none =>
    obtain ⟨o, ho, hov⟩ := h
    exact absurd hov (List.find?_eq_none.1 hfind o ho)
  | some o =>
    have hov := List.find?_some hfind
    exact ⟨o, List.mem_of_find?_eq_some hfind, hov, rfl⟩

/-- The value becomes the origin of those of its axes that have none. -/
theorem exists_foldl_addOwn (value : Nat) (axes : List AxisRef) (origins : List AxisOrigin) :
    ∃ extra, axes.foldl (addOwn value) origins = origins ++ extra ∧
      (∀ o ∈ extra, o.origin = value ∧ o.axis ∈ axes) ∧
      axes ⊆ (origins ++ extra).map (·.axis) := by
  induction axes generalizing origins with
  | nil => exact ⟨[], (List.append_nil _).symm, nofun, List.nil_subset _⟩
  | cons a rest ih =>
    obtain ⟨own, hown, hvalue, ha⟩ : ∃ own, addOwn value origins a = origins ++ own ∧
        (∀ o ∈ own, o.origin = value ∧ o.axis = a) ∧ a ∈ (origins ++ own).map (·.axis) := by
      unfold addOwn
      split
      · rename_i h
        obtain ⟨o, ho, h⟩ := List.any_eq_true.1 h
        refine ⟨[], (List.append_nil _).symm, nofun, ?_⟩
        rw [List.append_nil, ← of_decide_eq_true h]
        exact List.mem_map_of_mem ho
      · exact ⟨[⟨a, value⟩], rfl, by simp, by simp⟩
    obtain ⟨extra, hextra, hall, hrest⟩ := ih (origins ++ own)
    refine ⟨own ++ extra, ?_, fun o ho => ?_, ?_⟩
    · rw [List.foldl_cons, hown, hextra, List.append_assoc]
    · rcases List.mem_append.1 ho with ho | ho
      · exact ⟨(hvalue o ho).1, (hvalue o ho).2 ▸ List.mem_cons_self⟩
      · exact ⟨(hall o ho).1, List.mem_cons_of_mem _ (hall o ho).2⟩
    · rw [← List.append_assoc]
      refine List.cons_subset.2 ⟨?_, hrest⟩
      rw [List.map_append]
      exact List.mem_append_left _ ha

end Recorder

namespace Admission

open Propagator (axesOf)

variable {g : Propagator} {p : Program} {t t' : ShardingTable} {r r' : Recorder} {m : Mesh}
  {name axis : String} {v i c value source : Nat} {axes : List AxisRef} {level : Option Nat}
  {s user current : TensorSharding} {origins : List AxisOrigin}

section accounts

/-- Each of the origins has an axis of the user over the mesh that contains the recorded one, and
the recorded axes cover what the dimensions of the sharding cover. -/
structure Accounts (p : Program) (m : Mesh) (s : TensorSharding) (origins : List AxisOrigin) :
    Prop where
  named : ∀ o ∈ origins, p.IntroducesOver s.meshName m o
  covered : ∀ i axis c, 0 < coverage m axis c (dimOf (some s) i).axes →
    0 < coverage m axis c (origins.map (·.axis))

theorem accounts_nil (h : ∀ i, (dimOf (some s) i).axes = []) : Accounts p m s [] :=
  ⟨nofun, fun i axis c hc => by simp [h i] at hc⟩

/-- A dimension may change if there are origins for what it covers then. -/
theorem Accounts.modifyDim (h : Accounts p m s origins) (hi : i < s.rank)
    {f : DimSharding → DimSharding} (extra : List AxisOrigin)
    (hnamed : ∀ o ∈ extra, p.IntroducesOver s.meshName m o)
    (hcovered : ∀ axis c, 0 < coverage m axis c (f (dimOf (some s) i)).axes →
      0 < coverage m axis c (origins.map (·.axis)) ∨ 0 < coverage m axis c (extra.map (·.axis))) :
    Accounts p m (s.modifyDim i f) (origins ++ extra) := by
  refine ⟨fun o ho => (List.mem_append.1 ho).elim (h.named o) (hnamed o), fun j axis c hc => ?_⟩
  rw [List.map_append, coverage_append]
  rw [dimOf_modifyDim hi] at hc
  split at hc
  · rename_i hj
    subst hj
    have hall := hcovered axis c hc
    omega
  · have hold := h.covered j axis c hc
    omega

/-- The origins of a value account for its sharding, and one that has none has no origins. -/
structure Attributed (p : Program) (t : ShardingTable) (r : Recorder) : Prop where
  recordsOrigins : r.recordsOrigins = true
  unsharded : ∀ v, t.get v = none → r.record.originsOf v = []
  accounts : ∀ v s m, t.get v = some s → p.mesh s.meshName = .ok m →
    Accounts p m s (r.record.originsOf v)

theorem Attributed.accounts_getD (h : Attributed p t r) {n : Nat}
    (hs : s = (t.get v).getD (.fullyOpen name n)) (hname : s.meshName = name)
    (hm : p.mesh name = .ok m) : Accounts p m s (r.record.originsOf v) := by
  cases hget : t.get v with
  | none =>
    rw [hget] at hs
    subst hs
    rw [h.unsharded v hget]
    refine accounts_nil fun i => ?_
    rw [dimOf_getD]
    rfl
  | some x =>
    rw [hget, Option.getD_some] at hs
    subst hs
    exact h.accounts v s m hget (hname ▸ hm)

/-- The sharding and the origins of one value may change together. -/
theorem Attributed.change (h : Attributed p t r) (hget : t'.get v = some s)
    (hother : ∀ w ≠ v, t'.get w = t.get w) (hr : r'.recordsOrigins = r.recordsOrigins)
    (horigins : ∀ w ≠ v, r'.record.originsOf w = r.record.originsOf w)
    (haccounts : ∀ m, p.mesh s.meshName = .ok m → Accounts p m s (r'.record.originsOf v)) :
    Attributed p t' r' := by
  refine ⟨hr.trans h.recordsOrigins, fun w hw => ?_, fun w x m hx hm => ?_⟩
  · have hne : w ≠ v := by
      rintro rfl
      rw [hget] at hw
      cases hw
    rw [horigins w hne]
    exact h.unsharded w (hother w hne ▸ hw)
  · by_cases hw : w = v
    · subst hw
      rw [hget] at hx
      cases hx
      exact haccounts m hm
    · rw [horigins w hw]
      exact h.accounts w x m (hother w hw ▸ hx) hm

theorem Attributed.exists_origin (h : Attributed p t r) (hm : p.mesh name = .ok m)
    (hc : t.Covers name m v i axis c) :
    ∃ o ∈ r.record.originsOf v, o.axis.covers m axis c = true := by
  obtain ⟨s, hs, hname, hc⟩ := hc
  have hpos := (h.accounts v s m hs (hname ▸ hm)).covered i axis c hc
  obtain ⟨a, ha, hcovers⟩ := List.countP_pos_iff.1 hpos
  obtain ⟨o, ho, rfl⟩ := List.mem_map.1 ha
  exact ⟨o, ho, hcovers⟩

end accounts

section refinement

/-- Origins that are inherited name axes of the user, if the origins in the source cover the axes
and the user has no windows that meet. -/
theorem introducesOver_inherited (hvalues : ∀ v ∈ p.values, Import.checkValue p v = .ok ())
    (hdetached : p.DetachedUsers) (hm : p.mesh name = .ok m) {a : AxisRef}
    (hnamed : ∀ o ∈ origins, p.IntroducesOver name m o)
    (hplace : a.covers m a.name a.preSize = true)
    (hcovered : ∀ c, a.covers m a.name c = true → ∃ o ∈ origins, o.axis.covers m a.name c = true) :
    p.IntroducesOver name m (Recorder.inherited m source origins a) := by
  have hoverlap : ∃ o ∈ origins, o.axis.overlaps a m = true := by
    obtain ⟨o, ho, hcovers⟩ := hcovered a.preSize hplace
    exact ⟨o, ho, AxisRef.overlaps_of_covers hcovers hplace⟩
  obtain ⟨o, ho, hov, horigin⟩ := Recorder.exists_origin_inherited source hoverlap
  obtain ⟨b, hb, hcontains⟩ := hnamed o ho
  refine ⟨b, horigin ▸ hb, ?_⟩
  rw [Recorder.inherited_axis]
  refine AxisRef.contains_of_covers (P := fun b => ∃ v, p.HasUserAxis name v b)
    (fun b ⟨_, hb⟩ => (hb.valid hvalues hm).upright)
    (fun b x ⟨_, hb⟩ ⟨_, hx⟩ => hdetached name m hm _ b _ x hb hx) (fun c hc => ?_) ⟨_, hb⟩
    (AxisRef.overlaps_of_contains hcontains hov)
  obtain ⟨o, ho, hcovers⟩ := hcovered c hc
  obtain ⟨b, hb, hcontains⟩ := hnamed o ho
  exact ⟨b, ⟨_, hb⟩, AxisRef.covers_of_contains hcontains hcovers⟩

/-- A refinement whose axes the dimension or the source has covered is attributed. -/
theorem Attributed.refine (h : Attributed p t r)
    (hvalues : ∀ v ∈ p.values, Import.checkValue p v = .ok ()) (hdetached : p.DetachedUsers)
    (hunit : p.NoUnitAxes) (ht : t.Sound p) (hm : p.mesh name = .ok m) (hv : AllValid m axes)
    (ha : Apart m axes)
    (hdrawn : ∀ axis c, 0 < coverage m axis c axes → t.Covers name m v i axis c ∨
      ∃ j, t.Covers name m source j axis c)
    (hrefine : t.refine v i axes name m = some t') (operation : Nat) :
    Attributed p t' (r.refine m operation source v i (axesOf t v i) axes) := by
  obtain ⟨added, hstrip, hold, hadded, -⟩ := exists_added_of_refine ht hm hv hrefine
  obtain ⟨s, hs, hi, hname, hget⟩ := exists_of_refine hrefine
  have hsplit := coverage_stripPrefix? hv hold hstrip
  have horigins := Recorder.originsOf_refine h.recordsOrigins m operation source v i (axesOf t v i)
    axes
  rw [hstrip, Option.getD_some] at horigins
  -- what is added is new to the dimension, so the source has it
  have hsource : ∀ a ∈ added, ∀ axis c, a.covers m axis c = true →
      ∃ j, t.Covers name m source j axis c := by
    intro a ha' axis c hc
    have hpos : 0 < coverage m axis c added := List.countP_pos_iff.2 ⟨a, ha', hc⟩
    have hsum := hsplit axis c
    have hone := ha axis c
    refine (hdrawn axis c (by omega)).resolve_left fun hdim => ?_
    have hdim := hdim.coverage_pos
    omega
  refine h.change hget (fun w hw => get_of_refine hrefine hw) (by simp)
    (fun w hw => by rw [horigins, if_neg hw]) fun m' hm' => ?_
  cases (hname ▸ hm').symm.trans hm
  rw [horigins, if_pos rfl]
  refine (h.accounts_getD hs hname hm).modifyDim hi _ (fun o ho => ?_) fun axis c hc => ?_
  · obtain ⟨a, ha', rfl⟩ := List.mem_map.1 ho
    have hplace := (hadded a ha').covers_preSize (hunit.mesh hm)
    obtain ⟨_, x, hx, hxname, -⟩ := hsource a ha' a.name a.preSize hplace
    rw [hname]
    refine introducesOver_inherited hvalues hdetached hm ?_ hplace fun c hc => ?_
    · rw [← hxname]
      exact (h.accounts source x m hx (hxname ▸ hm)).named
    · obtain ⟨_, hcovers⟩ := hsource a ha' a.name c hc
      exact h.exists_origin hm hcovers
  · have hadds : (added.map (Recorder.inherited m source (r.record.originsOf source))).map
        (·.axis) = added := by simp [Function.comp_def]
    rw [coverage_mergeAdjacent hv, hsplit] at hc
    rw [hadds]
    by_cases hdim : 0 < coverage m axis c (axesOf t v i)
    · rw [axesOf_eq, ← dimOf_getD _ name s.rank, ← hs] at hdim
      exact .inl ((h.accounts_getD hs hname hm).covered i axis c hdim)
    · exact .inr (by omega)

end refinement

section admission

/-- What admission of axes of the user does to the origins: there are further ones for the value
itself. -/
structure Attributes (p : Program) (m : Mesh) (value : Nat) (r r' : Recorder)
    (current next : TensorSharding) : Prop where
  recordsOrigins : r'.recordsOrigins = r.recordsOrigins
  others : ∀ v ≠ value, r'.record.originsOf v = r.record.originsOf v
  meshName : next.meshName = current.meshName
  accounts : Accounts p m next (r'.record.originsOf value)

theorem Attributes.refl (h : Accounts p m s (r.record.originsOf value)) :
    Attributes p m value r r s s := ⟨rfl, fun _ _ => rfl, rfl, h⟩

theorem Attributes.trans {r'' : Recorder} {next last : TensorSharding}
    (h : Attributes p m value r r' current next) (h' : Attributes p m value r' r'' next last) :
    Attributes p m value r r'' current last :=
  ⟨h'.recordsOrigins.trans h.recordsOrigins,
    fun v hv => (h'.others v hv).trans (h.others v hv), h'.meshName.trans h.meshName, h'.accounts⟩

theorem attributes_admitDim (hr : r.recordsOrigins = true) (level : Option Nat) (dim : Nat)
    {u : DimSharding} (hu : ∀ a ∈ u.axes, p.HasUserAxis current.meshName value a)
    (h : Accounts p m current (r.record.originsOf value)) :
    Attributes p m value r (admitDim m level value current r dim u).2 current
      (admitDim m level value current r dim u).1 := by
  unfold admitDim
  cases hd : current.dims[dim]? with
  | none => exact .refl h
  | some d =>
    have hdim := (List.getElem?_eq_some_iff.1 hd).1
    dsimp only
    split
    · exact .refl h
    · split
      · have horigins := Recorder.originsOf_addUserAxes hr value u.axes
        obtain ⟨extra, hextra, hown, haxes⟩ :=
          Recorder.exists_foldl_addOwn value u.axes (r.record.originsOf value)
        refine ⟨by simp, fun v hv => by rw [horigins, if_neg hv], rfl, ?_⟩
        rw [horigins, if_pos rfl, hextra]
        refine h.modifyDim hdim extra (fun o ho => ?_) fun axis c hc => ?_
        · obtain ⟨hvalue, ha⟩ := hown o ho
          exact ⟨o.axis, hvalue ▸ hu o.axis ha, o.axis.contains_self m⟩
        · obtain ⟨a, ha, hcovers⟩ := List.countP_pos_iff.1 hc
          have hpos : 0 < coverage m axis c ((r.record.originsOf value ++ extra).map (·.axis)) :=
            List.countP_pos_iff.2 ⟨a, haxes ha, hcovers⟩
          rw [List.map_append, coverage_append] at hpos
          omega
      · split
        · refine ⟨rfl, fun _ _ => rfl, rfl, ?_⟩
          rw [← List.append_nil (r.record.originsOf value)]
          exact h.modifyDim hdim [] nofun fun axis c hc => .inl (h.covered dim axis c hc)
        · exact .refl h

theorem attributes_admitDims (hr : r.recordsOrigins = true) (level : Option Nat) (dim : Nat)
    (users : List DimSharding)
    (husers : ∀ u ∈ users, ∀ a ∈ u.axes, p.HasUserAxis current.meshName value a)
    (h : Accounts p m current (r.record.originsOf value)) :
    Attributes p m value r (admitDims m level value dim users current r).2 current
      (admitDims m level value dim users current r).1 := by
  induction users generalizing dim current r with
  | nil => exact .refl h
  | cons u rest ih =>
    rw [List.forall_mem_cons] at husers
    have hfirst := attributes_admitDim hr level dim husers.1 h
    exact hfirst.trans (ih (hfirst.recordsOrigins.trans hr) (dim + 1)
      (hfirst.meshName ▸ husers.2) hfirst.accounts)

/-- A value has origins for the axes of the user that have been admitted to it. -/
theorem Attributed.admitSharding (h : Attributed p t r) (hlt : value < t.length)
    (hm : p.mesh user.meshName = .ok m) (huser : p.sharding? value = some user)
    (level : Option Nat) :
    Attributed p (t.put value (some (admitSharding m level value user (t.get value) r).1))
      (admitSharding m level value user (t.get value) r).2 := by
  have hput : ∀ s, (t.put value (some s)).get value = some s := fun s => by
    rw [get_put, if_pos ⟨rfl, hlt⟩]
  have hother : ∀ s, ∀ v ≠ value, (t.put value (some s)).get v = t.get v := fun s v hv => by
    rw [get_put, if_neg fun h => hv h.1]
  have hadmit : ∀ start : TensorSharding, start.meshName = user.meshName →
      Accounts p m start (r.record.originsOf value) →
      Attributed p (t.put value (some (admitDims m level value 0 user.dims start r).1))
        (admitDims m level value 0 user.dims start r).2 := by
    intro start hname haccounts
    have hadmits := attributes_admitDims h.recordsOrigins level 0 user.dims
      (fun u hu a ha => ⟨user, huser, hname.symm, List.mem_flatMap.2 ⟨u, hu, ha⟩⟩) haccounts
    refine h.change (hput _) (hother _) hadmits.recordsOrigins hadmits.others fun m' hm' => ?_
    rw [hadmits.meshName, hname, hm] at hm'
    cases hm'
    exact hadmits.accounts
  unfold Admission.admitSharding
  cases hget : t.get value with
  | none =>
    refine hadmit (unadmitted user) rfl ?_
    rw [h.unsharded value hget]
    refine accounts_nil fun i => ?_
    simp only [dimOf, unadmitted, Option.map_some, Option.getD_some, List.getElem?_map]
    cases user.dims[i]? <;> rfl
  | some s =>
    dsimp only
    split
    · rename_i hsame
      exact hadmit s hsame.1 (h.accounts value s m hget (hsame.1 ▸ hm))
    · exact h.change (hput s) (hother s) rfl (fun _ _ => rfl) fun m' hm' =>
        h.accounts value s m' hget hm'

theorem Attributed.admitValues {shardings : List (Option TensorSharding)}
    (hshardings : ∀ (i : Nat) (user : TensorSharding), shardings[i]? = some (some user) →
      p.sharding? (value + i) = some user) (h : Attributed p t r)
    (hrun : admitValues p level value shardings t r = .ok (t', r')) : Attributed p t' r' := by
  induction shardings generalizing value t r with
  | nil => cases hrun; exact h
  | cons first rest ih =>
    have hrest : ∀ (i : Nat) (user : TensorSharding), rest[i]? = some (some user) →
        p.sharding? (value + 1 + i) = some user := by
      intro i user hi
      rw [Nat.add_assoc, Nat.add_comm 1]
      exact hshardings (i + 1) user hi
    cases first with
    | none => exact ih hrest h hrun
    | some user =>
      obtain ⟨m, hm, hrun⟩ := bind_eq_ok_iff.1 hrun
      obtain ⟨t₁, ht₁, hrun⟩ := bind_eq_ok_iff.1 hrun
      unfold ShardingTable.set at ht₁
      split at ht₁
      · rename_i hlt
        cases ht₁
        exact ih hrest (h.admitSharding hlt hm (hshardings 0 user rfl) level) hrun
      · cases ht₁

end admission

section propagated

variable {heuristics : List Heuristic} {q : Program} {provenance : Provenance}

theorem maintains_attributed (hrules : g.program.RulesVerify)
    (hvalues : ∀ v ∈ g.program.values, Import.checkValue g.program v = .ok ())
    (hunit : g.program.NoUnitAxes)
    (hunmixed : ∀ o ∈ g.program.operations, ∀ rule, o.rule = some rule → rule.Unmixed)
    (hdetached : g.program.DetachedUsers) :
    g.Maintains fun t r => t.Sound g.program ∧ Attributed g.program t r := by
  refine Propagator.maintains_of_decide (fun _ _ h => h.1) ?_
  rintro o ho rule hrule direction start d hstart hdecide u hu operation t r t' ⟨ht, h⟩ hgrows hrefine
  have hverify := hrules o ho rule hrule
  have hsafe := Propagator.safe_of_decide hstart hverify hdecide
  obtain ⟨hv, ha⟩ := hsafe.axes u hu
  refine ⟨ht.refine hsafe.mesh hv ha hrefine, h.refine hvalues hdetached hunit ht hsafe.mesh hv ha
    (fun axis c hc => ?_) hrefine operation⟩
  -- the table covers what it has covered when the operation decided
  refine (Propagator.drawn_of_decide hstart hunit hverify (hunmixed o ho rule hrule) hdecide hu
    hc).imp (fun hdim => hdim.grows hgrows hstart ht hsafe.mesh) ?_
  rintro ⟨j, hsource⟩
  exact ⟨j, hsource.grows hgrows hstart ht hsafe.mesh⟩

/-- Recorded origins are sound where each dimension has one source, no axis has size 1 and the user
has no windows that meet: the value that is named has an axis of the user that contains the recorded
one. None are missing: each place that a dimension covers in the end is covered by a recorded axis. -/
theorem introduces_of_propagate (hrules : g.program.RulesVerify)
    (hvalues : ∀ v ∈ g.program.values, Import.checkValue g.program v = .ok ())
    (hunit : g.program.NoUnitAxes)
    (hunmixed : ∀ o ∈ g.program.operations, ∀ rule, o.rule = some rule → rule.Unmixed)
    (hdetached : g.program.DetachedUsers) (hrecords : g.options.recordsOrigins = true)
    (h : propagate g heuristics = .ok (q, provenance)) :
    ∀ v, (∀ o ∈ provenance.originsOf v, g.program.Introduces o) ∧
      ∀ name m i axis c, q.mesh name = .ok m → q.table.Covers name m v i axis c →
        ∃ o ∈ provenance.originsOf v, o.axis.covers m axis c = true := by
  obtain ⟨r, hlevels, hstore, -, -, rfl⟩ := exists_runLevels_of_propagate hrules hvalues h
  have hstart : Attributed g.program (ofRanks (g.program.values.map Value.rank))
      (.start g.options.recordsOrigins g.options.recordsEdges) := by
    refine ⟨hrecords, fun _ _ => rfl, fun v s m hs => ?_⟩
    rw [get_ofRanks] at hs
    cases hs
  obtain ⟨hsound, hattributed⟩ := runLevels_maintains
    (maintains_attributed hrules hvalues hunit hunmixed hdetached)
    (fun level t r t' r' ⟨ht, h⟩ hrun => ⟨sound_admitLevel hvalues ht hrun,
      h.admitValues (fun i user hi => by rwa [Nat.zero_add, ← userShardings_eq_some_iff]) hrun⟩)
    ⟨sound_ofRanks _, hstart⟩ hlevels
  have hmesh : q.mesh = g.program.mesh := by
    rw [hstore]
    rfl
  refine fun v => ⟨fun o ho => ?_, fun name m i axis c hm hc =>
    hattributed.exists_origin (hmesh ▸ hm) hc⟩
  cases hs : q.table.get v with
  | none => simp [hattributed.unsharded v hs] at ho
  | some s =>
    obtain ⟨m, hm, -⟩ := hsound.valid v s hs
    obtain ⟨a, ⟨user, huser, hname, ha⟩, hcontains⟩ :=
      (hattributed.accounts v s m hs hm).named o ho
    exact ⟨user, m, a, huser, hname ▸ hm, ha, hcontains⟩

/-- The axis of the first value goes on to the last one by way of a value that has no axes of the
user. -/
theorem introduces_of_propagate_relay :
    let p := Propagator.relay
    let g : Propagator := ⟨p, { Options.default with recordsOrigins := true }, Policy.largest⟩
    ∃ q provenance, propagate g Heuristic.standard = .ok (q, provenance) ∧
      provenance.origins = [(0, [⟨.full "x", 0⟩]), (1, [⟨.full "x", 0⟩]), (2, [⟨.full "x", 0⟩])] ∧
      ∀ v, (∀ o ∈ provenance.originsOf v, p.Introduces o) ∧
        ∀ name m i axis c, q.mesh name = .ok m → q.table.Covers name m v i axis c →
          ∃ o ∈ provenance.originsOf v, o.axis.covers m axis c = true := by
  intro p g
  have h : (do
      let (_, provenance) ← propagate g Heuristic.standard
      return provenance.origins)
        = Except.ok [(0, [⟨.full "x", 0⟩]), (1, [⟨.full "x", 0⟩]), (2, [⟨.full "x", 0⟩])] :=
    eq_ok_of_toOption (by decide +kernel)
  obtain ⟨⟨q, provenance⟩, hpropagate, h⟩ := bind_eq_ok_iff.1 h
  have hunmixed : ∀ o ∈ p.operations, ∀ rule, o.rule = some rule → rule.Unmixed := by
    intro o ho rule hrule
    rcases List.mem_pair.1 ho with rfl | rfl <;>
    · cases hrule
      exact .inl (by decide)
  have hfull : ∀ name v a, p.HasUserAxis name v a → a = .full "x" ∨ a = .full "y" := by
    rintro name v a ⟨s, hs, -, ha⟩
    rcases v with _ | _ | _ | v <;> cases hs
    · exact .inl (List.mem_singleton.1 ha)
    · exact .inr (List.mem_singleton.1 ha)
  have hdetached : p.DetachedUsers := by
    intro name m _ v a w b ha hb
    rcases hfull name v a ha with rfl | rfl <;> rcases hfull name w b hb with rfl | rfl
    · exact .inl rfl
    · exact .inr fun h => absurd h (by decide)
    · exact .inr fun h => absurd h (by decide)
    · exact .inl rfl
  exact ⟨q, provenance, hpropagate, Except.ok.inj h, introduces_of_propagate (g := g)
    rulesVerify_relay checkValue_relay noUnitAxes_relay hunmixed hdetached rfl hpropagate⟩

/-- The result takes an axis from each of its operands into one dimension. Both are recorded with
the first operand as their origin, but its user knows nothing of the second axis. -/
theorem not_introduces_of_propagate :
    let sharded (axis : String) : TensorSharding := .ofDims "mesh" [.ofAxes [.full axis] false]
    let r : Rule := ⟨[⟨2, .passThrough, false⟩, ⟨4, .passThrough, false⟩], [⟨[[0]]⟩, ⟨[[1]]⟩],
      [⟨[[0, 1]]⟩], true⟩
    let p : Program := .single (Mesh.grid 2 2 Nat.two_pos Nat.two_pos)
      [([2], some (sharded "x")), ([4], some (sharded "y"))] "custom" r [8] none
    let g : Propagator := ⟨p, { Options.default with recordsOrigins := true }, Policy.largest⟩
    p.RulesVerify ∧ (∀ v ∈ p.values, Import.checkValue p v = .ok ()) ∧
      ∃ q provenance, propagate g Heuristic.standard = .ok (q, provenance) ∧
        ∃ o ∈ provenance.originsOf 2, ¬ p.Introduces o := by
  intro sharded r p g
  have h : (do
      let (_, provenance) ← propagate g Heuristic.standard
      return provenance.originsOf 2) = Except.ok [⟨.full "x", 0⟩, ⟨.full "y", 0⟩] :=
    eq_ok_of_toOption (by decide +kernel)
  obtain ⟨⟨q, provenance⟩, hpropagate, h⟩ := bind_eq_ok_iff.1 h
  have hvalues : ∀ v ∈ p.values, Import.checkValue p v = .ok () :=
    List.forall_mem_cons.2 ⟨eq_ok_of_toOption (by decide +kernel), List.forall_mem_cons.2
      ⟨eq_ok_of_toOption (by decide +kernel), List.forall_mem_singleton.2 rfl⟩⟩
  refine ⟨Program.rulesVerify_single _ _ _ (eq_ok_of_toOption (by decide +kernel)), hvalues, q,
    provenance, hpropagate, ⟨.full "y", 0⟩, ?_, ?_⟩
  · rw [Except.ok.inj h]
    exact List.mem_cons_of_mem _ List.mem_cons_self
  · rintro ⟨s, m, a, hs, -, ha, hcontains⟩
    cases hs
    rw [List.mem_singleton.1 ha, AxisRef.contains, decide_eq_true_eq] at hcontains
    exact absurd hcontains.1 (by decide)

end propagated
end Admission
end MeshSharding
