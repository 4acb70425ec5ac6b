import MeshSharding.Propagation.Admission
import MeshSharding.Proofs.Pipeline.Import
import MeshSharding.Proofs.Propagation.Decision
import MeshSharding.Proofs.Propagation.FixedPoint
import MeshSharding.Proofs.Propagation.Growth

/-! Validity through propagation. Admission takes axes of the user only where the rest of the
sharding leaves them free, and every pass keeps the table valid, so the shardings that are
written back are valid. -/
namespace MeshSharding

open AxisList ShardingTable
open Propagator (relay)

namespace Propagator

variable {g : Propagator}

/-- What a valid table and its record keep under each update of a decision is maintained. The table
has grown since the decision was made. -/
theorem maintains_of_decide {Q : ShardingTable → Recorder → Prop}
    (hsound : ∀ t r, Q t r → t.Sound g.program)
    (hupdate : ∀ o ∈ g.program.operations, ∀ rule, o.rule = some rule →
      ∀ (direction : Direction) (start : ShardingTable) (d : Decision), start.Sound g.program →
      g.decide o rule direction start = .ok (some d) → ∀ u ∈ d.updates,
      ∀ (operation : Nat) (t : ShardingTable) (r : Recorder) (t' : ShardingTable), Q t r →
      start.Grows g.program t → t.refine u.value u.dim u.axes d.meshName d.mesh = some t' →
      Q t' (r.refine d.mesh operation u.source u.value u.dim (axesOf t u.value u.dim) u.axes)) :
    g.Maintains Q := by
  intro directionOf operation s s' hs h
  obtain ⟨o, decision, ho, hask, rfl⟩ := process_eq_ok_iff.1 h
  cases decision with
  | none => exact hs
  | some d =>
    obtain ⟨rule, hrule, hdecide⟩ := ask_eq_some hask
    obtain ⟨_, _, _, hm, -, -, -, -⟩ := decide_eq_some hdecide
    have hstart := hsound _ _ hs
    refine (List.foldlRecOn (motive := fun now : State => Q now.table now.recorder ∧
      s.table.Grows g.program now.table) d.updates _ ⟨hs, .refl hstart⟩ ?_).1
    rintro now ⟨hnow, hgrows⟩ u hu
    rcases applyUpdate_cases g operation d now u with ⟨-, heq⟩ | ⟨t, hrefine, -, -, -⟩
    · rw [heq]
      exact ⟨hnow, hgrows⟩
    · rw [applyUpdate_eq hrefine]
      exact ⟨hupdate o (List.mem_of_getElem? ho) rule hrule _ _ d hstart hdecide u hu operation _ _ _
        hnow hgrows hrefine, hgrows.trans (grows_refine (hsound _ _ hnow) hm hrefine)⟩

/-- What a valid table and its record keep under each update of a safe decision is maintained. -/
theorem maintains_of_update (hg : g.program.RulesVerify) {Q : ShardingTable → Recorder → Prop}
    (hsound : ∀ t r, Q t r → t.Sound g.program)
    (hupdate : ∀ (d : Decision) (operation : Nat), d.Safe g.program → ∀ u ∈ d.updates,
      ∀ t r t', Q t r → t.refine u.value u.dim u.axes d.meshName d.mesh = some t' →
      Q t' (r.refine d.mesh operation u.source u.value u.dim (axesOf t u.value u.dim) u.axes)) :
    g.Maintains Q :=
  maintains_of_decide hsound fun o ho rule hrule _ _ d hstart hdecide u hu operation _ _ _ hs _
      hrefine =>
    hupdate d operation (safe_of_decide hstart (hg o ho rule hrule) hdecide) u hu _ _ _ hs hrefine

/-- Operations whose rules verify keep the table valid. -/
theorem keeps_sound (hg : g.program.RulesVerify) :
    g.Keeps (ShardingTable.Sound g.program) :=
  maintains_of_update hg (fun _ _ => id) fun _ _ hsafe u hu _ _ _ ht hrefine =>
    ht.refine hsafe.mesh (hsafe.axes u hu).1 (hsafe.axes u hu).2 hrefine

end Propagator

namespace Admission

variable {g : Propagator} {m : Mesh} {level : Option Nat} {value : Nat} {r : Recorder}
  {user current : TensorSharding}

section dims

/-- Admission keeps the mesh and the rank, and the sharding valid. -/
structure Admits (m : Mesh) (current next : TensorSharding) : Prop where
  meshName : next.meshName = current.meshName
  rank : next.rank = current.rank
  valid : next.Valid m

theorem Admits.refl (h : current.Valid m) : Admits m current current := ⟨rfl, rfl, h⟩

theorem Admits.trans {next last : TensorSharding} (h : Admits m current next)
    (h' : Admits m next last) : Admits m current last :=
  ⟨h'.meshName.trans h.meshName, h'.rank.trans h.rank, h'.valid⟩

theorem admits_admitDim (level : Option Nat) (value : Nat) (r : Recorder) (h : current.Valid m)
    {d : DimSharding} (hv : AllValid m d.axes) (ha : Apart m d.axes) (dim : Nat) :
    Admits m current (admitDim m level value current r dim d).1 := by
  unfold admitDim
  cases hdim : current.dims[dim]? with
  | none => exact .refl h
  | some old =>
    obtain ⟨hvalid, hapart⟩ := (TensorSharding.valid_iff hdim).1 h
    dsimp only
    split
    · exact .refl h
    · split
      · rename_i hguard
        simp only [Bool.and_eq_true, Bool.not_eq_true', List.any_eq_false] at hguard
        refine ⟨rfl, TensorSharding.modifyDim_rank .., h.modifyDim hdim hv ?_⟩
        exact apart_append_of_not_overlaps hv (allValid_append.1 hvalid).2 ha
          (hapart.sublist (List.sublist_append_right ..)) (by simpa using hguard.1)
      · split
        · exact ⟨rfl, TensorSharding.modifyDim_rank .., h.modifyDim hdim
            (allValid_append.1 hvalid).1 hapart⟩
        · exact .refl h

theorem admits_admitDims (level : Option Nat) (value : Nat) (r : Recorder)
    {dims : List DimSharding} (h : current.Valid m)
    (hdims : ∀ d ∈ dims, AllValid m d.axes ∧ Apart m d.axes) (dim : Nat) :
    Admits m current (admitDims m level value dim dims current r).1 := by
  induction dims generalizing current r dim with
  | nil => exact .refl h
  | cons d rest ih =>
    rw [List.forall_mem_cons] at hdims
    have hfirst := admits_admitDim level value r h hdims.1.1 hdims.1.2 dim
    exact hfirst.trans (ih _ hfirst.valid hdims.2 _)

theorem valid_unadmitted (h : user.Valid m) : (unadmitted user).Valid m := by
  have hsub : (unadmitted user).usedAxes.Sublist user.usedAxes := by
    have hnil : (unadmitted user).dimAxes = [] := by
      simp [TensorSharding.dimAxes, unadmitted, DimSharding.ofAxes]
    unfold TensorSharding.usedAxes
    rw [hnil]
    exact ((List.nil_sublist _).append_right _).append_right _
  exact ⟨h.1.subset hsub.subset, h.2.sublist hsub⟩

theorem apart_dims (h : user.Valid m) : ∀ d ∈ user.dims, AllValid m d.axes ∧ Apart m d.axes := by
  intro d hd
  obtain ⟨dim, hdim⟩ := List.getElem?_of_mem hd
  exact ⟨h.allValid_axes hdim, h.apart_axes hdim⟩

/-- What is admitted of a valid sharding of the user is valid. -/
theorem sound_admitSharding {p : Program} {t : ShardingTable} (ht : t.Sound p)
    (hm : p.mesh user.meshName = .ok m) (hu : user.validate m (p.shapeOf value) = .ok ()) :
    ∃ m', p.mesh (admitSharding m level value user (t.get value) r).1.meshName = .ok m' ∧
      (admitSharding m level value user (t.get value) r).1.validate m' (p.shapeOf value)
        = .ok () := by
  obtain ⟨hrank, hvalid⟩ := TensorSharding.validate_eq_ok_iff.1 hu
  have hadmit : ∀ start : TensorSharding, start.meshName = user.meshName →
      start.rank = user.rank → start.Valid m →
      ∃ m', p.mesh (admitDims m level value 0 user.dims start r).1.meshName = .ok m' ∧
        (admitDims m level value 0 user.dims start r).1.validate m' (p.shapeOf value)
          = .ok () := by
    intro start hname hstart hvalid'
    have hadmits := admits_admitDims level value r hvalid' (apart_dims hvalid) 0
    exact ⟨m, by rw [hadmits.meshName, hname, hm],
      TensorSharding.validate_eq_ok_iff.2 ⟨by rw [hadmits.rank, hstart, hrank], hadmits.valid⟩⟩
  unfold admitSharding
  cases hget : t.get value with
  | none =>
    exact hadmit (unadmitted user) rfl (by simp [unadmitted, TensorSharding.rank])
      (valid_unadmitted hvalid)
  | some s =>
    dsimp only
    obtain ⟨m', hm', hs⟩ := ht.valid value s hget
    split
    · rename_i hsame
      rw [hsame.1, hm] at hm'
      cases hm'
      exact hadmit s hsame.1 hsame.2 (TensorSharding.validate_eq_ok_iff.1 hs).2
    · exact ⟨m', hm', hs⟩

end dims

section levels

variable {p : Program} {t t' : ShardingTable} {r' : Recorder}

theorem sound_admitValues {shardings : List (Option TensorSharding)}
    (hshardings : ∀ (i : Nat) (user : TensorSharding), shardings[i]? = some (some user) →
      ∃ m, p.mesh user.meshName = .ok m ∧ user.validate m (p.shapeOf (value + i)) = .ok ())
    (ht : t.Sound p) (h : admitValues p level value shardings t r = .ok (t', r')) :
    t'.Sound p := by
  induction shardings generalizing value t r with
  | nil => cases h; exact ht
  | cons first rest ih =>
    have hrest : ∀ (i : Nat) (user : TensorSharding), rest[i]? = some (some user) →
        ∃ m, p.mesh user.meshName = .ok m ∧
        user.validate m (p.shapeOf (value + 1 + i)) = .ok () := by
      intro i user hi
      rw [Nat.add_assoc, Nat.add_comm 1]
      exact hshardings (i + 1) user hi
    cases first with
    | none => exact ih hrest ht h
    | some user =>
      obtain ⟨m, hm, h⟩ := bind_eq_ok_iff.1 h
      obtain ⟨t₁, ht₁, h⟩ := bind_eq_ok_iff.1 h
      obtain ⟨m', hm', hu⟩ := hshardings 0 user rfl
      cases hm.symm.trans hm'
      refine ih hrest ?_ h
      unfold ShardingTable.set at ht₁
      split at ht₁
      · cases ht₁
        exact ht.put fun _ => sound_admitSharding ht hm hu
      · cases ht₁

/-- What admission and every operation maintain holds behind all levels. -/
theorem runLevels_maintains {Q : ShardingTable → Recorder → Prop} (hmaintains : g.Maintains Q)
    (hadmission : ∀ level t r t' r', Q t r →
      admitValues g.program level 0 (userShardings g.program) t r = .ok (t', r') → Q t' r')
    {heuristics : List Heuristic} {levels : List (Option Nat)} (ht : Q t r)
    (h : runLevels g heuristics levels t r = .ok (t', r')) : Q t' r' := by
  induction levels generalizing t r with
  | nil => cases h; exact ht
  | cons level rest ih =>
    obtain ⟨⟨t₁, r₁⟩, hlevel, h⟩ := bind_eq_ok_iff.1 h
    obtain ⟨⟨t₂, r₂⟩, hpasses, h⟩ := bind_eq_ok_iff.1 h
    exact ih (hmaintains.runPasses (hadmission _ _ _ _ _ ht hlevel) hpasses) h

theorem runLevels_induction {P : ShardingTable → Prop} (hkeeps : g.Keeps P)
    (hadmission : ∀ level t r t' r', P t →
      admitValues g.program level 0 (userShardings g.program) t r = .ok (t', r') → P t')
    {heuristics : List Heuristic} {levels : List (Option Nat)} (ht : P t)
    (h : runLevels g heuristics levels t r = .ok (t', r')) : P t' :=
  runLevels_maintains hkeeps.maintains hadmission ht h

/-- What the user has asked for is admitted at every level as far as it is valid. -/
theorem sound_admitLevel (hvalues : ∀ v ∈ p.values, Import.checkValue p v = .ok ())
    (ht : t.Sound p) (h : admitValues p level 0 (userShardings p) t r = .ok (t', r')) :
    t'.Sound p := by
  refine sound_admitValues (fun i user hi => ?_) ht h
  rw [userShardings, List.getElem?_map] at hi
  obtain ⟨v, hv, hsharding⟩ := Option.map_eq_some_iff.1 hi
  obtain ⟨m, hm, hvalid⟩ :=
    Import.checkValue_eq_ok_iff.1 (hvalues v (List.mem_of_getElem? hv)) user hsharding
  refine ⟨m, hm, ?_⟩
  simpa [Program.shapeOf, hv] using hvalid

theorem sound_runLevels (hg : g.program.RulesVerify)
    (hvalues : ∀ v ∈ g.program.values, Import.checkValue g.program v = .ok ())
    {heuristics : List Heuristic} {levels : List (Option Nat)} (ht : t.Sound g.program)
    (h : runLevels g heuristics levels t r = .ok (t', r')) : t'.Sound g.program :=
  runLevels_induction (Propagator.keeps_sound hg)
    (fun _ _ _ _ _ ht hadmit => sound_admitLevel hvalues ht hadmit) ht h

theorem sound_ofRanks (p : Program) : (ofRanks (p.values.map Value.rank)).Sound p := by
  refine ⟨by simp [ofRanks], fun value s hs => ?_⟩
  simp only [ShardingTable.get, ofRanks, List.getElem?_map] at hs
  cases hv : p.values[value]? <;> simp [hv] at hs

@[simp] theorem usedAxes_withoutPriorities (s : TensorSharding) :
    s.withoutPriorities.usedAxes = s.usedAxes := by
  simp [TensorSharding.usedAxes, TensorSharding.dimAxes, TensorSharding.withoutPriorities,
    TensorSharding.mapDims, List.flatMap_map]

theorem checkValue_store (hvalues : ∀ v ∈ p.values, Import.checkValue p v = .ok ())
    (ht : t.Sound p) : ∀ v ∈ (store p t).values, Import.checkValue (store p t) v = .ok () := by
  intro v' hv'
  obtain ⟨id, hid⟩ := List.getElem?_of_mem hv'
  simp only [store, List.getElem?_mapIdx] at hid
  obtain ⟨v, hv, hid⟩ := Option.map_eq_some_iff.1 hid
  cases hget : t.get id with
  | none =>
    rw [hget] at hid
    cases hid
    exact hvalues v (List.mem_of_getElem? hv)
  | some s =>
    rw [hget] at hid
    cases hid
    refine Import.checkValue_eq_ok_iff.2 fun s' hs' => ?_
    cases hs'
    obtain ⟨m, hm, hvalid⟩ := ht.valid id s hget
    refine ⟨m, hm, ?_⟩
    rw [TensorSharding.validate_eq_ok_iff] at hvalid ⊢
    rw [TensorSharding.Valid, usedAxes_withoutPriorities]
    exact ⟨by simpa [Program.shapeOf, hv, TensorSharding.withoutPriorities] using hvalid.1,
      hvalid.2⟩

/-- Propagation keeps shardings valid: at every level of admission, under updates in any order,
and in the program that comes out. -/
theorem valid_of_propagate (hg : g.program.RulesVerify)
    (hvalues : ∀ v ∈ g.program.values, Import.checkValue g.program v = .ok ())
    (heuristics : List Heuristic) :
    (∀ levels r t r', runLevels g heuristics levels (ofRanks (g.program.values.map Value.rank)) r
      = .ok (t, r') → t.Sound g.program) ∧
    (∀ o ∈ g.program.operations, ∀ rule, o.rule = some rule → ∀ d t, t.Sound g.program →
      ∃ decision, g.decide o rule d t = .ok decision ∧
        ∀ x ∈ decision, ∀ updates ⊆ x.updates, ∀ (operation : Nat) (s : Propagator.State),
          s.table.Sound g.program →
          (updates.foldl (g.applyUpdate operation x) s).table.Sound g.program) ∧
    ∀ q provenance, propagate g heuristics = .ok (q, provenance) →
      ∀ v ∈ q.values, Import.checkValue q v = .ok () := by
  refine ⟨fun levels r t r' h => sound_runLevels hg hvalues (sound_ofRanks _) h,
    fun o ho rule hrule d t ht => ?_, fun q provenance h => ?_⟩
  · obtain ⟨decision, hdecide, hsafe⟩ := Propagator.exists_decide ht (hg o ho rule hrule) d
    exact ⟨decision, hdecide, fun x hx updates hsub operation s hs =>
      Propagator.sound_foldl_applyUpdate (hsafe x hx) hsub hs⟩
  · obtain ⟨⟨t, r⟩, hlevels, h⟩ := bind_eq_ok_iff.1 h
    cases h
    exact checkValue_store hvalues (sound_runLevels hg hvalues (sound_ofRanks _) hlevels)

theorem rulesVerify_relay : relay.RulesVerify := by
  intro o ho rule hrule
  rcases List.mem_pair.1 ho with rfl | rfl <;>
  · cases hrule
    exact eq_ok_of_toOption (by decide +kernel)

theorem noUnitAxes_relay : relay.NoUnitAxes := by
  unfold Program.NoUnitAxes Mesh.NoUnitAxes
  decide

theorem checkValue_relay : ∀ v ∈ relay.values, Import.checkValue relay v = .ok () := by
  refine List.forall_mem_cons.2 ⟨?_, List.forall_mem_cons.2 ⟨rfl,
    List.forall_mem_singleton.2 ?_⟩⟩ <;> exact eq_ok_of_toOption (by decide +kernel)

/-- The earlier level has its axis at both ends. -/
theorem valid_of_propagate_relay :
    ∃ q provenance,
      propagate ⟨relay, .default, Policy.largest⟩ Heuristic.standard = .ok (q, provenance) ∧
      q.values.map (·.sharding)
        = List.replicate 3 (some (.ofDims "mesh" [.ofAxes [.full "x"] false])) ∧
      ∀ v ∈ q.values, Import.checkValue q v = .ok () := by
  have h : (do
      let propagated ← propagate ⟨relay, .default, Policy.largest⟩ Heuristic.standard
      return propagated.1.values.map (·.sharding))
        = Except.ok (List.replicate 3 (some (.ofDims "mesh" [.ofAxes [.full "x"] false]))) :=
    eq_ok_of_toOption (by decide +kernel)
  obtain ⟨⟨q, provenance⟩, hpropagate, h⟩ := bind_eq_ok_iff.1 h
  exact ⟨q, provenance, hpropagate, Except.ok.inj h, (valid_of_propagate
    (g := ⟨relay, .default, Policy.largest⟩) rulesVerify_relay checkValue_relay
    Heuristic.standard).2.2 q provenance hpropagate⟩

end levels

end Admission
end MeshSharding
