import MeshSharding.Proofs.Propagation.Growth
import MeshSharding.Proofs.Propagation.Reconciliation

/-! What the user has asked for survives propagation. The first level admits every sharding of the
user; from then on refinements only add minor axes to open dimensions, and a later admission
leaves a dimension alone, closes it as the user has it or writes the axes of the user again. -/
namespace MeshSharding

open AxisList

namespace TensorSharding

variable {m : Mesh} {P : DimSharding → Prop} {user s t : TensorSharding} {dim : Nat}
  {axes : List AxisRef}

/-- The sharding is the one of the user up to its dimensions. Of these, the ones that `P` selects
have the axes of the user, and only if they are open for him further minor ones. -/
structure Honours (m : Mesh) (P : DimSharding → Prop) (user s : TensorSharding) : Prop where
  meshName : s.meshName = user.meshName
  replicated : s.replicated = user.replicated
  unreduced : s.unreduced = user.unreduced
  rank : s.rank = user.rank
  dims : ∀ (i : Nat) (u : DimSharding), user.dims[i]? = some u → P u →
    ∃ d, s.dims[i]? = some d ∧ (u.closed = true → d.closed = true ∧ d.axes = u.axes) ∧
      (stripPrefix? m d.axes u.axes).isSome

theorem Honours.grows (h : Honours m P user s) (hg : s.Grows m t) : Honours m P user t where
  meshName := hg.meshName.trans h.meshName
  replicated := hg.replicated.trans h.replicated
  unreduced := hg.unreduced.trans h.unreduced
  rank := hg.rank.trans h.rank
  dims := by
    intro i u hu hP
    obtain ⟨d, hd, hclosed, hstrip⟩ := h.dims i u hu hP
    obtain ⟨e, he⟩ : ∃ e, t.dims[i]? = some e := by
      have hlt : i < t.rank := hg.rank.symm ▸ (List.getElem?_eq_some_iff.1 hd).1
      exact ⟨_, List.getElem?_eq_getElem hlt⟩
    obtain ⟨-, hkept, hgrown⟩ := hg.dims i d e hd he
    refine ⟨e, he, fun huc => ?_, isSome_stripPrefix?_trans hstrip hgrown⟩
    obtain ⟨hdc, haxes⟩ := hclosed huc
    rw [hkept hdc]
    exact ⟨hdc, haxes⟩

end TensorSharding

namespace Admission

open TensorSharding

variable {m : Mesh} {level : Option Nat} {value dim : Nat} {r r' : Recorder}
  {user current : TensorSharding} {u d e : DimSharding} {users : List DimSharding}
  {P : DimSharding → Prop} {p : Program} {t t' : ShardingTable} {g : Propagator}

section sharding

/-- Admission changes nothing but the dimensions, and keeps their number. -/
theorem admitDims_eq (m : Mesh) (level : Option Nat) (value dim : Nat) (users : List DimSharding)
    (current : TensorSharding) (r : Recorder) :
    ∃ dims, (admitDims m level value dim users current r).1 = { current with dims := dims } ∧
      dims.length = current.dims.length := by
  induction users generalizing dim current r with
  | nil => exact ⟨current.dims, rfl, rfl⟩
  | cons u rest ih =>
    obtain ⟨first, hfirst, hlength⟩ : ∃ dims,
        (admitDim m level value current r dim u).1 = { current with dims := dims } ∧
          dims.length = current.dims.length := by
      cases hd : current.dims[dim]? with
      | none => exact ⟨current.dims, by rw [admitDim_of_none hd], rfl⟩
      | some d =>
        rcases admitDim_cases m level value r u hd with h | ⟨f, -, h⟩
        · exact ⟨current.dims, h, rfl⟩
        · exact ⟨_, h, List.length_modify ..⟩
    obtain ⟨dims, hdims, hlength'⟩ := ih (dim + 1) (admitDim m level value current r dim u).1
      (admitDim m level value current r dim u).2
    refine ⟨dims, ?_, ?_⟩
    · rw [admitDims, hdims, hfirst]
    · rw [hlength', hfirst]
      exact hlength

theorem Reconciles.honours (h : Reconciles m u d e)
    (hd : (u.closed = true → d.closed = true ∧ d.axes = u.axes) ∧
      (stripPrefix? m d.axes u.axes).isSome) :
    (u.closed = true → e.closed = true ∧ e.axes = u.axes) ∧
      (stripPrefix? m e.axes u.axes).isSome := by
  cases h with
  | kept => exact hd
  | closed huc => exact ⟨fun h => ⟨rfl, (hd.1 h).2⟩, hd.2⟩
  | taken _ => exact ⟨fun h => ⟨h, rfl⟩, by rw [stripPrefix?_self]; rfl⟩

theorem honours_admitSharding_some (h : Honours m P user current) (level : Option Nat) (value : Nat)
    (r : Recorder) :
    Honours m P user (admitSharding m level value user (some current) r).1 := by
  have hsame : current.meshName = user.meshName ∧ current.rank = user.rank := ⟨h.meshName, h.rank⟩
  obtain ⟨dims, hdims, hlength⟩ := admitDims_eq m level value 0 user.dims current r
  have heq : (admitSharding m level value user (some current) r).1
      = { current with dims := dims } := by
    unfold admitSharding
    dsimp only
    rw [if_pos hsame, hdims]
  refine ⟨heq ▸ h.meshName, heq ▸ h.replicated, heq ▸ h.unreduced, ?_, fun i u hu hP => ?_⟩
  · rw [heq]
    exact hlength.trans h.rank
  · obtain ⟨d, hd, hhonours⟩ := h.dims i u hu hP
    obtain ⟨u', e, hu', he, hreconciles⟩ :=
      exists_reconciles_admitSharding hsame.1 hsame.2 m level value r hd
    cases hu.symm.trans hu'
    exact ⟨e, he, hreconciles.honours hhonours⟩

end sharding

section first

/-- Every dimension is empty or has the axes of the user, so it stands in the way of none of
them. -/
structure Part (user s : TensorSharding) : Prop where
  replicated : s.replicated = user.replicated
  unreduced : s.unreduced = user.unreduced
  dims : ∀ (i : Nat) (d : DimSharding), s.dims[i]? = some d →
    d.axes = [] ∨ ∃ u, user.dims[i]? = some u ∧ d.axes = u.axes

theorem part_unadmitted (user : TensorSharding) : Part user (unadmitted user) := by
  refine ⟨rfl, rfl, fun i d hd => ?_⟩
  simp only [unadmitted, List.getElem?_map, Option.map_eq_some_iff] at hd
  obtain ⟨_, -, rfl⟩ := hd
  exact .inl rfl

theorem mem_axesOutside {s : TensorSharding} {a : AxisRef} : a ∈ s.axesOutside dim ↔
    (∃ i ≠ dim, ∃ d, s.dims[i]? = some d ∧ a ∈ d.axes) ∨ a ∈ s.replicated ∨ a ∈ s.unreduced := by
  simp only [axesOutside, List.mem_append, List.mem_flatMap, List.mem_eraseIdx_iff_getElem?]
  grind

theorem Part.axesOutside_subset (h : Part user current) (dim : Nat) :
    current.axesOutside dim ⊆ user.axesOutside dim := by
  intro a ha
  rcases mem_axesOutside.1 ha with ⟨i, hi, d, hd, had⟩ | ha
  · rcases h.dims i d hd with hnil | ⟨u, hu, haxes⟩
    · simp [hnil] at had
    · exact mem_axesOutside.2 (.inl ⟨i, hi, u, hu, haxes ▸ had⟩)
  · rw [h.replicated, h.unreduced] at ha
    exact mem_axesOutside.2 (.inr ha)

theorem Part.admitDim (h : Part user current) (hu : user.dims[dim]? = some u) :
    Part user (admitDim m level value current r dim u).1 := by
  cases hd : current.dims[dim]? with
  | none =>
    rw [admitDim_of_none hd]
    exact h
  | some d =>
    rcases admitDim_cases m level value r u hd with heq | ⟨f, hf, heq⟩
    · rw [heq]
      exact h
    · rw [heq]
      refine ⟨h.replicated, h.unreduced, fun i e he => ?_⟩
      by_cases hi : i = dim
      · subst hi
        rw [dims_modifyDim hd] at he
        cases he
        rcases hf.axes_eq with haxes | haxes
        · exact haxes ▸ h.dims i d hd
        · exact .inr ⟨u, hu, haxes⟩
      · rw [dims_modifyDim_of_ne hi] at he
        exact h.dims i e he

/-- A dimension without axes takes those of the user where nothing else has been admitted. -/
theorem admitDim_eq_taken (huser : user.Valid m) (h : Part user current)
    (hu : user.dims[dim]? = some u) (hd : current.dims[dim]? = some d) (hnil : d.axes = [])
    (hvisible : isHidden level u = false) :
    (admitDim m level value current r dim u).1.dims[dim]?
      = some { d with axes := u.axes, closed := u.closed } := by
  have hused : (u.axes.any fun a => overlapsAny m a (current.axesOutside dim)) = false := by
    obtain ⟨hvalid, hapart⟩ := (valid_iff hu).1 huser
    rw [allValid_append] at hvalid
    refine List.any_eq_false.2 fun a ha => ?_
    rw [overlapsAny, List.any_eq_true]
    rintro ⟨b, hb, hov⟩
    refine (not_overlaps_iff (hvalid.1 a ha) hvalid.2).2 (fun name c hc => ?_) b
      (h.axesOutside_subset dim hb) hov
    -- the place is covered once, by `a` itself
    have hone := hapart name c
    have hpos : 0 < coverage m name c u.axes := List.countP_pos_iff.2 ⟨a, ha, hc⟩
    rw [coverage_append] at hone
    omega
  have hprefix : AxisList.isPrefix m d.axes u.axes = true := by
    rw [hnil]
    exact decide_eq_true rfl
  unfold Admission.admitDim
  simp only [hd, hused, hvisible, hprefix, Bool.false_eq_true, if_false, Bool.not_false,
    Bool.and_self, if_true]
  exact dims_modifyDim hd _

theorem dims_admitDims_taken (huser : user.Valid m) (h : Part user current)
    (husers : ∀ (i : Nat) (u : DimSharding), users[i]? = some u → user.dims[dim + i]? = some u)
    {i : Nat} (hu : users[i]? = some u) (hd : current.dims[dim + i]? = some d)
    (hnil : d.axes = []) (hvisible : isHidden level u = false) :
    (admitDims m level value dim users current r).1.dims[dim + i]?
      = some { d with axes := u.axes, closed := u.closed } := by
  induction users generalizing dim current r i with
  | nil => cases hu
  | cons first rest ih =>
    have hfirst := husers 0 first rfl
    rw [Nat.add_zero] at hfirst
    rw [admitDims]
    cases i with
    | zero =>
      cases hu
      simp only [Nat.add_zero] at hd ⊢
      rw [dims_admitDims_of_lt (Nat.lt_succ_self dim)]
      exact admitDim_eq_taken huser h hfirst hd hnil hvisible
    | succ i =>
      have hnext : dim + (i + 1) = dim + 1 + i := by omega
      rw [hnext] at hd ⊢
      refine ih (h.admitDim hfirst) (fun j u hj => ?_) hu ?_
      · rw [Nat.add_assoc, Nat.add_comm 1]
        exact husers (j + 1) u hj
      · rw [dims_admitDim_of_ne (by omega), hd]

/-- The first level that shows a dimension admits it as the user has it. -/
theorem honours_admitSharding_none (huser : user.Valid m)
    (hvisible : ∀ u ∈ user.dims, P u → isHidden level u = false) (value : Nat) (r : Recorder) :
    Honours m P user (admitSharding m level value user none r).1 := by
  obtain ⟨dims, hdims, hlength⟩ :=
    admitDims_eq m level value 0 user.dims (unadmitted user) r
  have heq : (admitSharding m level value user none r).1
      = { unadmitted user with dims := dims } := hdims
  refine ⟨heq ▸ rfl, heq ▸ rfl, heq ▸ rfl, ?_, fun i u hu hP => ?_⟩
  · rw [heq]
    exact hlength.trans (List.length_map ..)
  · have hempty : (unadmitted user).dims[0 + i]? = some (.ofAxes [] false) := by
      rw [Nat.zero_add, unadmitted, List.getElem?_map, hu]
      rfl
    have htaken : (admitDims m level value 0 user.dims (unadmitted user) r).1.dims[0 + i]?
        = some (.ofAxes u.axes u.closed) :=
      dims_admitDims_taken huser (part_unadmitted user) (fun i u hu => by rwa [Nat.zero_add]) hu
        hempty rfl (hvisible u (List.mem_of_getElem? hu) hP)
    rw [Nat.zero_add] at htaken
    exact ⟨_, htaken, fun h => ⟨h, rfl⟩, Option.isSome_of_mem (stripPrefix?_self m u.axes)⟩

end first

section values

/-- What a table has for a value behind the admission of a level. -/
theorem get_admitValues {shardings : List (Option TensorSharding)}
    (h : admitValues p level value shardings t r = .ok (t', r')) :
    (∀ v < value, t'.get v = t.get v) ∧
      ∀ (i : Nat) (user : TensorSharding), shardings[i]? = some (some user) →
        ∃ m r₀, p.mesh user.meshName = .ok m ∧
          t'.get (value + i)
            = some (admitSharding m level (value + i) user (t.get (value + i)) r₀).1 := by
  induction shardings generalizing value t r with
  | nil =>
    cases h
    exact ⟨fun _ _ => rfl, nofun⟩
  | cons first rest ih =>
    cases first with
    | none =>
      obtain ⟨hbefore, hat⟩ := ih h
      refine ⟨fun v hv => hbefore v (Nat.lt_succ_of_lt hv), fun i user hi => ?_⟩
      cases i with
      | zero => cases hi
      | succ i =>
        obtain ⟨m, r₀, hm, hget⟩ := hat i user hi
        rw [Nat.add_assoc, Nat.add_comm 1] at hget
        exact ⟨m, r₀, hm, hget⟩
    | some user =>
      obtain ⟨m, hm, h⟩ := bind_eq_ok_iff.1 h
      obtain ⟨t₁, ht₁, h⟩ := bind_eq_ok_iff.1 h
      unfold ShardingTable.set at ht₁
      split at ht₁
      · rename_i hlt
        cases ht₁
        obtain ⟨hbefore, hat⟩ := ih h
        have hother : ∀ (s : Option TensorSharding) v, v ≠ value →
            (t.put value s).get v = t.get v := fun s v hv => by
          rw [ShardingTable.get_put, if_neg fun h => hv h.1]
        refine ⟨fun v hv => ?_, fun i user' hi => ?_⟩
        · rw [hbefore v (Nat.lt_succ_of_lt hv), hother _ v (Nat.ne_of_lt hv)]
        · cases i with
          | zero =>
            cases hi
            refine ⟨m, r, hm, ?_⟩
            rw [Nat.add_zero, hbefore value (Nat.lt_succ_self value), ShardingTable.get_put,
              if_pos ⟨rfl, hlt⟩]
          | succ i =>
            obtain ⟨m', r₀, hm', hget⟩ := hat i user' hi
            rw [Nat.add_assoc, Nat.add_comm 1, hother _ (value + (i + 1)) (by omega)] at hget
            exact ⟨m', r₀, hm', hget⟩
      · cases ht₁

/-- Every sharding of the user is honoured by the one in the table. -/
def Kept (p : Program) (P : DimSharding → Prop) (t : ShardingTable) : Prop :=
  ∀ (value : Nat) (user : TensorSharding), p.sharding? value = some user →
    ∃ m s, p.mesh user.meshName = .ok m ∧ t.get value = some s ∧ Honours m P user s

theorem userShardings_eq_some_iff {user : TensorSharding} :
    (userShardings p)[value]? = some (some user) ↔ p.sharding? value = some user := by
  simp [userShardings, Program.sharding?, Option.bind_eq_some_iff]

theorem Kept.admitValues (hkept : Kept p P t)
    (h : admitValues p level 0 (userShardings p) t r = .ok (t', r')) : Kept p P t' := by
  intro value user huser
  obtain ⟨m, r₀, hm, hget⟩ := (get_admitValues h).2 value user (userShardings_eq_some_iff.2 huser)
  obtain ⟨m', s, hm', hs, hhonours⟩ := hkept value user huser
  cases hm.symm.trans hm'
  rw [Nat.zero_add, hs] at hget
  exact ⟨m, _, hm, hget, honours_admitSharding_some hhonours level value r₀⟩

/-- Behind the first level, which shows all that `P` selects, every sharding is honoured. -/
theorem kept_admitValues (hvalues : ∀ v ∈ p.values, Import.checkValue p v = .ok ())
    (hvisible : ∀ value user, p.sharding? value = some user → ∀ u ∈ user.dims, P u →
      isHidden level u = false)
    (hempty : ∀ value, t.get value = none)
    (h : admitValues p level 0 (userShardings p) t r = .ok (t', r')) : Kept p P t' := by
  intro value user huser
  obtain ⟨m, r₀, hm, hget⟩ := (get_admitValues h).2 value user (userShardings_eq_some_iff.2 huser)
  rw [Nat.zero_add, hempty] at hget
  obtain ⟨v, hv, hsharding⟩ := Option.bind_eq_some_iff.1 huser
  obtain ⟨m', hm', hvalid⟩ :=
    Import.checkValue_eq_ok_iff.1 (hvalues v (List.mem_of_getElem? hv)) user hsharding
  cases hm.symm.trans hm'
  exact ⟨m, _, hm, hget, honours_admitSharding_none (validate_eq_ok_iff.1 hvalid).2
    (hvisible value user huser) value r₀⟩

end values

section levels

theorem Kept.refine {name : String} {axes : List AxisRef} (h : Kept p P t)
    (hm : p.mesh name = .ok m) (hrefine : t.refine value dim axes name m = some t') :
    Kept p P t' := by
  obtain ⟨entry, s, hentry, hname, hs, rfl⟩ := ShardingTable.refine_eq_some_iff.1 hrefine
  intro other user huser
  obtain ⟨m', old, hm', hold, hhonours⟩ := h other user huser
  by_cases hother : other = value
  · subst hother
    have hget : entry.sharding = some old := by
      simpa [ShardingTable.get, hentry] using hold
    rw [hget] at hname hs
    have hsame : old.meshName = name := hname
    rw [← hhonours.meshName, hsame, hm] at hm'
    cases hm'
    refine ⟨m, s, by rw [← hhonours.meshName, hsame, hm], ?_, hhonours.grows (grows_refineDim hs)⟩
    rw [ShardingTable.get_put, if_pos ⟨rfl, (List.getElem?_eq_some_iff.1 hentry).1⟩]
  · refine ⟨m', old, hm', ?_, hhonours⟩
    rw [ShardingTable.get_put, if_neg fun h => hother h.1]
    exact hold

theorem kept_foldl_applyUpdate {operation : Nat} {decision : Propagator.Decision}
    {updates : List ShardingUpdate} (hm : g.program.mesh decision.meshName = .ok decision.mesh)
    {s : Propagator.State} (h : Kept g.program P s.table) :
    Kept g.program P (updates.foldl (g.applyUpdate operation decision) s).table := by
  induction updates generalizing s with
  | nil => exact h
  | cons u rest ih =>
    refine ih ?_
    rcases Propagator.applyUpdate_cases g operation decision s u with
      ⟨-, heq⟩ | ⟨t, hrefine, htable, -, -⟩
    · rw [heq]
      exact h
    · rw [htable]
      exact h.refine hm hrefine

theorem keeps_kept (g : Propagator) (P : DimSharding → Prop) : g.Keeps (Kept g.program P) := by
  intro directionOf operation s s' hs h
  obtain ⟨o, decision, -, hask, rfl⟩ := Propagator.process_eq_ok_iff.1 h
  cases decision with
  | none => exact hs
  | some d =>
    obtain ⟨rule, -, hdecide⟩ := Propagator.ask_eq_some hask
    obtain ⟨_, _, _, hm, -, -, -, -⟩ := Propagator.decide_eq_some hdecide
    exact kept_foldl_applyUpdate hm hs

/-- The first level shows the dimension: it has no priority, or none in the program is smaller. -/
def IsFirst (p : Program) (u : DimSharding) : Prop :=
  ∀ own ∈ u.priority, ∀ other ∈ priorities p, own ≤ other

theorem exists_levels_eq_cons (p : Program) : ∃ level rest, levels p = level :: rest ∧
    ∀ u, IsFirst p u → isHidden level u = false := by
  unfold levels
  cases hp : priorities p with
  | nil => exact ⟨none, [], rfl, fun u _ => by unfold isHidden; cases u.priority <;> rfl⟩
  | cons first rest =>
    refine ⟨some first, rest.map some, rfl, fun u hu => ?_⟩
    unfold isHidden
    cases hpriority : u.priority with
    | none => rfl
    | some own =>
      have hle := hu own hpriority first (hp ▸ List.mem_cons_self)
      simpa using hle

/-- Behind all levels, a value that the user has sharded still has his mesh and his replicated and
unreduced axes, and his axes in the dimensions that the first level shows: there a dimension that
is closed for him is closed with exactly these, and in one that is open they come first. -/
theorem honours_of_propagate (hvalues : ∀ v ∈ g.program.values,
      Import.checkValue g.program v = .ok ()) {heuristics : List Heuristic} {q : Program}
    {provenance : Provenance} (h : propagate g heuristics = .ok (q, provenance)) :
    ∀ (value : Nat) (user : TensorSharding), g.program.sharding? value = some user →
      ∃ m s, g.program.mesh user.meshName = .ok m ∧ q.sharding? value = some s ∧
        Honours m (IsFirst g.program) user s := by
  obtain ⟨⟨t, r⟩, hlevels, h⟩ := bind_eq_ok_iff.1 h
  cases h
  obtain ⟨level, rest, hfirst, hvisible⟩ := exists_levels_eq_cons g.program
  rw [hfirst] at hlevels
  obtain ⟨⟨t₁, r₁⟩, hadmit, hlevels⟩ := bind_eq_ok_iff.1 hlevels
  obtain ⟨⟨t₂, r₂⟩, hpasses, hlevels⟩ := bind_eq_ok_iff.1 hlevels
  have hempty : ∀ value,
      (ShardingTable.ofRanks (g.program.values.map Value.rank)).get value = none := by
    intro value
    simp only [ShardingTable.get, ShardingTable.ofRanks, List.getElem?_map]
    cases g.program.values[value]? <;> rfl
  have hkept : Kept g.program (IsFirst g.program) t := by
    refine runLevels_induction (keeps_kept g _)
      (fun level t r t' r' ht hadmit => ht.admitValues hadmit) ?_ hlevels
    exact (keeps_kept g _).runPasses (kept_admitValues hvalues
      (fun _ _ _ u _ hu => hvisible u hu) hempty hadmit) hpasses
  intro value user huser
  obtain ⟨m, s, hm, hs, hhonours⟩ := hkept value user huser
  obtain ⟨v, hv, -⟩ := Option.bind_eq_some_iff.1 huser
  refine ⟨m, s.withoutPriorities, hm, ?_, hhonours.meshName, hhonours.replicated,
    hhonours.unreduced, (mapDims_rank ..).trans hhonours.rank, fun i u hu hP => ?_⟩
  · simp [Program.sharding?, store, List.getElem?_mapIdx, hv, hs]
  · obtain ⟨d, hd, hdim⟩ := hhonours.dims i u hu hP
    exact ⟨{ d with priority := none }, by simp [withoutPriorities, mapDims, hd], hdim⟩

/-- The axis of the first value, which has the smaller priority, is kept. -/
theorem honours_of_propagate_relay :
    let g : Propagator := ⟨Propagator.relay, .default, Policy.largest⟩
    let user : TensorSharding := .ofDims "mesh" [⟨[.full "x"], false, some 0⟩]
    g.program.sharding? 0 = some user ∧ (∀ u ∈ user.dims, IsFirst g.program u) ∧
      ∃ q provenance, propagate g Heuristic.standard = .ok (q, provenance) ∧
        ∃ m s, g.program.mesh "mesh" = .ok m ∧ q.sharding? 0 = some s ∧
          Honours m (IsFirst g.program) user s := by
  intro g user
  obtain ⟨⟨q, provenance⟩, hq⟩ : ∃ q, propagate g Heuristic.standard = .ok q := by
    have h : (propagate g Heuristic.standard).toOption.isSome := by decide +kernel
    exact (Option.isSome_iff_exists.1 h).imp fun q => eq_ok_of_toOption
  have hfirst : ∀ u ∈ user.dims, IsFirst g.program u := by
    rintro u hu own hown other -
    rw [List.mem_singleton.1 hu] at hown
    cases hown
    exact Nat.zero_le other
  exact ⟨rfl, hfirst, q, provenance, hq, honours_of_propagate checkValue_relay hq 0 user rfl⟩

end levels
end Admission
end MeshSharding
