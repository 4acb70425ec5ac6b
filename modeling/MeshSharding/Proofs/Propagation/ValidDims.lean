import MeshSharding.Proofs.Propagation.Admission

/-! Valid references through propagation. A rule that does not fit its operation may deal out
an axis twice, but what is dealt out and what factors take are always parts of the axes that
are there, so whatever the rules, every dimension refers to its mesh. -/
namespace MeshSharding

open AxisList

namespace Sorted

variable {α β : Type} [DecidableEq α] [LT α] [DecidableLT α] {x : α × β}
  {entries : List (α × β)}

theorem mem_put {k : α} {v : β} (h : x ∈ put k v entries) : x = (k, v) ∨ x ∈ entries := by
  induction entries with
  | nil => exact .inl (List.mem_singleton.1 h)
  | cons entry rest ih =>
    unfold put at h
    split at h
    · exact List.mem_cons.1 h
    · split at h
      · exact (List.mem_cons.1 h).imp_right (List.mem_cons_of_mem _)
      · rcases List.mem_cons.1 h with rfl | h
        · exact .inr List.mem_cons_self
        · exact (ih h).imp_right (List.mem_cons_of_mem _)

/-- A map has no entries but those it is built of, also where keys are repeated. -/
theorem ofEntries_subset (entries : List (α × β)) : ofEntries entries ⊆ entries := by
  have hfold : ∀ map : List (α × β),
      entries.foldl (fun map entry => put entry.1 entry.2 map) map ⊆ map ++ entries := by
    induction entries with
    | nil => simp
    | cons entry rest ih =>
      intro map x hx
      rcases List.mem_append.1 (ih _ hx) with hx | hx
      · rcases mem_put hx with rfl | hx
        · simp
        · simp [hx]
      · simp [hx]
  simpa [ofEntries] using hfold []

end Sorted

namespace TensorFactors

variable {m : Mesh} {t : TensorFactors} {k : Nat} {f : FactorSharding} {axes : List AxisRef}

/-- The axes of all factors, and those that overflow them, are valid. -/
def Known (m : Mesh) (t : TensorFactors) : Prop :=
  ∀ e ∈ t.factors, AllValid m (Portion.ofFactor e.2).all

theorem Known.factor (h : t.Known m) (hf : t.factor? k = some f) :
    AllValid m (Portion.ofFactor f).all := h _ (Sorted.mem_of_find? hf)

theorem Known.dimAxes (h : t.Known m) (mapping : Mapping) (dim : Nat) :
    AllValid m (t.dimAxes m mapping dim) := by
  rw [dimAxes_eq]
  refine AllValid.mergeAdjacent fun a ha => ?_
  obtain ⟨k, -, ha⟩ := List.mem_flatMap.1 ha
  obtain ⟨e, he, ha⟩ := List.mem_flatMap.1 (held_subset t.factors k ha)
  exact h e he a ha

theorem known_project {r : Rule} {mapping : Mapping} {s : Option TensorSharding}
    (hs : ∀ x ∈ s, x.ValidDims m) (h : project m r mapping s = .ok t) : t.Known m := by
  obtain ⟨entries, hentries, h⟩ := bind_eq_ok_iff.1 h
  cases h
  obtain ⟨-, hvalid, -⟩ := dealOutDims_spec (allValid_getD_dims hs) hentries
  exact fun e he => hvalid e (Sorted.ofEntries_subset entries he)

/-- A factor takes valid axes. -/
theorem Known.setAxes (h : t.Known m) (hv : AllValid m axes) : (t.setAxes k axes).Known m := by
  intro e he
  obtain ⟨entry, hentry, rfl⟩ := List.mem_map.1 he
  split
  · exact allValid_append.2 ⟨hv, (allValid_append.1 (h entry hentry)).2⟩
  · exact h entry hentry

end TensorFactors

namespace Projection

variable {m : Mesh} {p : Projection} {t : TensorRef} {k : Nat} {axes : List AxisRef}

def Known (m : Mesh) (p : Projection) : Prop :=
  ∀ t tensor, p.tensor? t = some tensor → tensor.Known m

theorem Known.factor (h : p.Known m) {f : FactorSharding} (hf : p.factor? t k = some f) :
    AllValid m (Portion.ofFactor f).all := by
  obtain ⟨tensor, htensor, hf⟩ := Option.bind_eq_some_iff.1 hf
  exact (h t tensor htensor).factor hf

theorem Known.setAxes (h : p.Known m) (hv : AllValid m axes) : (p.setAxes t k axes).Known m := by
  intro t' tensor htensor
  rw [tensor?_setAxes] at htensor
  split at htensor
  · obtain ⟨old, hold, rfl⟩ := Option.map_eq_some_iff.1 htensor
    exact (h t' old hold).setAxes hv
  · exact h t' tensor htensor

theorem known_projectAll {r : Rule} {mappings : List Mapping}
    {shardings : List (Option TensorSharding)} {ts : List TensorFactors}
    (hs : ∀ s, some s ∈ shardings → s.ValidDims m)
    (h : projectAll m r mappings shardings = .ok ts) : ∀ t ∈ ts, t.Known m := by
  induction mappings generalizing shardings ts with
  | nil => cases h; nofun
  | cons mapping mappings ih =>
    obtain ⟨t, ht, h⟩ := bind_eq_ok_iff.1 h
    obtain ⟨rest, hrest, h⟩ := bind_eq_ok_iff.1 h
    cases h
    refine List.forall_mem_cons.2 ⟨TensorFactors.known_project (fun x hx => ?_) ht,
      ih (fun s hs' => hs s (List.mem_of_mem_tail hs')) hrest⟩
    cases shardings with
    | nil => cases hx
    | cons s rest => exact hs x (List.mem_cons.2 (.inl hx.symm))

theorem known_ofShardings {r : Rule} {operands results : List (Option TensorSharding)}
    (hs : ∀ s, some s ∈ operands ++ results → s.ValidDims m)
    (h : ofShardings m r operands results = .ok p) : p.Known m := by
  obtain ⟨os, hos, h⟩ := bind_eq_ok_iff.1 h
  obtain ⟨rs, hrs, h⟩ := bind_eq_ok_iff.1 h
  cases h
  rintro ⟨side, i⟩ tensor htensor
  cases side with
  | operand =>
    exact known_projectAll (fun s hs' => hs s (List.mem_append_left _ hs')) hos tensor
      (List.mem_of_getElem? htensor)
  | result =>
    exact known_projectAll (fun s hs' => hs s (List.mem_append_right _ hs')) hrs tensor
      (List.mem_of_getElem? htensor)

end Projection

namespace FactorStep

variable {s : FactorStep} {r : Rule} {p q : Projection} {k : Nat} {towards more : List AxisRef}
  {t source : TensorRef} {d : Direction} {updates : List FactorUpdate}

/-- A factor grows by axes of the candidate, or by a major part of one. -/
theorem allValid_grow {size shards : Nat} {minorMost : Bool} {used l : List AxisRef}
    (hl : AllValid s.mesh l) (h : s.grow size minorMost used shards l = .ok more) :
    AllValid s.mesh more := by
  induction l generalizing shards more with
  | nil => cases h; nofun
  | cons a rest ih =>
    rw [allValid_cons] at hl
    obtain rfl | ⟨tail, -, htail, rfl⟩ | ⟨-, rfl⟩ | ⟨parts, -, hparts, rfl⟩ := grow_cons_eq_ok h
    · nofun
    · exact allValid_cons.2 ⟨hl.1, ih hl.2 htail⟩
    · simpa [AllValid] using hl.1
    · simpa [AllValid] using (AxisRef.split_eq_some hl.1 hparts).1

theorem allValid_extension (hp : p.Known s.mesh) (hv : AllValid s.mesh towards)
    (h : s.extension r p k towards t = .ok more) : AllValid s.mesh more := by
  unfold extension at h
  split at h
  · cases h; nofun
  · rename_i tensor htensor
    split at h
    · cases h; nofun
    · rename_i f hf
      split at h
      · split at h
        · rename_i rest size hstrip hsize
          have haxes := (allValid_append.1 ((hp t tensor htensor).factor hf)).1
          exact allValid_grow (stripPrefix?_eq_some hv haxes hstrip).1 h
        · cases h; nofun
      · cases h; nofun

theorem known_extendTargets {targets : List TensorRef} (hp : p.Known s.mesh)
    (hv : AllValid s.mesh towards)
    (h : s.extendTargets r k towards source p targets = .ok (q, updates)) : q.Known s.mesh := by
  induction targets generalizing p updates with
  | nil => cases h; exact hp
  | cons t rest ih =>
    obtain ⟨-, h⟩ | ⟨a, more, us, hmore, hlast, rfl⟩ := extendTargets_cons_eq_ok h
    · exact ih hp h
    · refine ih (hp.setAxes (allValid_append.2 ⟨?_, allValid_extension hp hv hmore⟩)) hlast
      unfold axesOf
      cases hf : p.factor? t k with
      | none => exact nofun
      | some f => exact (allValid_append.1 (hp.factor hf)).1

theorem allValid_of_mem_sources {m : Mesh} (hp : p.Known m) {axes : List AxisRef}
    (h : (t, axes) ∈ sources p d k) : AllValid m axes := by
  obtain ⟨-, f, hf, rfl⟩ := mem_sources h
  exact (allValid_append.1 (hp.factor hf)).1

theorem allValid_candidate (hp : p.Known s.mesh)
    (h : s.candidate (sources p d k) = some (towards, source)) : AllValid s.mesh towards := by
  unfold candidate at h
  split at h
  · cases h
  · rename_i first axes rest _ hsources
    dsimp only at h
    split at h
    · cases h
    · cases h
      have hmem : ∀ x ∈ (source, axes) :: rest, AllValid s.mesh x.2 := fun x hx =>
        allValid_of_mem_sources (t := x.1) hp (hsources ▸ hx)
      refine (commonPrefixOfAll_spec (hmem _ List.mem_cons_self) fun l hl => ?_).1
      obtain ⟨x, hx, rfl⟩ := List.mem_map.1 hl
      exact hmem x (List.mem_cons_of_mem _ hx)
  · obtain ⟨index, -, h⟩ := Option.bind_eq_some_iff.1 h
    obtain ⟨⟨t, axes⟩, hpicked, h⟩ := Option.bind_eq_some_iff.1 h
    cases h
    exact allValid_of_mem_sources hp (List.mem_of_getElem? hpicked)

theorem known_propagateFactors {factors : List Nat} (hp : p.Known s.mesh)
    (h : s.propagateFactors r d p factors = .ok (q, updates)) : q.Known s.mesh := by
  induction factors generalizing p updates with
  | nil => cases h; exact hp
  | cons k rest ih =>
    obtain ⟨⟨next, us⟩, hnext, h⟩ := bind_eq_ok_iff.1 h
    obtain ⟨⟨last, us'⟩, hlast, h⟩ := bind_eq_ok_iff.1 h
    cases h
    refine ih ?_ hlast
    unfold propagateFactor at hnext
    split at hnext
    · split at hnext
      · cases hnext; exact hp
      · rename_i towards source hcandidate
        exact known_extendTargets hp (allValid_candidate hp hcandidate) hnext
    · cases hnext; exact hp

end FactorStep

namespace TensorSharding

variable {m : Mesh} {s s' : TensorSharding} {dim : Nat}

theorem ValidDims.modifyDim (h : s.ValidDims m) {f : DimSharding → DimSharding}
    (hf : ∀ d ∈ s.dims, AllValid m (f d).axes) (dim : Nat) :
    (s.modifyDim dim f).ValidDims m := by
  intro d hd
  obtain ⟨i, hi⟩ := List.getElem?_of_mem hd
  rw [TensorSharding.modifyDim, List.getElem?_modify, Option.map_eq_map] at hi
  obtain ⟨old, hold, rfl⟩ := Option.map_eq_some_iff.1 hi
  split
  · exact hf old (List.mem_of_getElem? hold)
  · exact h old (List.mem_of_getElem? hold)

theorem ValidDims.refineDim (h : s.ValidDims m) {axes : List AxisRef} (hv : AllValid m axes)
    (hrefine : s.refineDim m dim axes = some s') : s'.ValidDims m := by
  obtain ⟨d, added, -, -, -, -, -, rfl⟩ := refineDim_eq_some hrefine
  exact h.modifyDim (fun _ _ => hv.mergeAdjacent) dim

end TensorSharding

/-- The sharding is over a mesh of the program, and its dimensions refer to that mesh. -/
def Program.Knows (p : Program) (s : TensorSharding) : Prop :=
  ∃ m, p.mesh s.meshName = .ok m ∧ s.ValidDims m

def ShardingTable.ValidDims (p : Program) (t : ShardingTable) : Prop :=
  ∀ value s, t.get value = some s → p.Knows s

theorem ShardingTable.ValidDims.put {p : Program} {t : ShardingTable} (h : t.ValidDims p)
    {s : TensorSharding} {m : Mesh} (hm : p.mesh s.meshName = .ok m) (hs : s.ValidDims m)
    (value : Nat) : (t.put value (some s)).ValidDims p := by
  intro other s' hs'
  rw [get_put] at hs'
  split at hs'
  · cases hs'
    exact ⟨m, hm, hs⟩
  · exact h other s' hs'

namespace Propagator

variable {g : Propagator} {m : Mesh} {o : Operation} {r : Rule} {t t' : ShardingTable}

theorem allValid_updatesOf {p : Projection} (hp : p.Known m) {seen : List (TensorRef × Nat)}
    {changed : List FactorUpdate} {updates : List ShardingUpdate}
    (h : updatesOf m o r p seen changed = .ok updates) :
    ∀ u ∈ updates, AllValid m u.axes := by
  induction changed generalizing seen updates with
  | nil => cases h; nofun
  | cons u rest ih =>
    obtain ⟨-, h⟩ | ⟨_, _, _, _, more, -, -, -, -, hmore, rfl⟩ := updatesOf_cons_eq_ok h
    · exact ih h
    · refine List.forall_mem_cons.2 ⟨?_, ih hmore⟩
      cases htensor : p.tensor? u.target with
      | none => exact nofun
      | some tensor => exact (hp _ tensor htensor).dimAxes _ _

/-- Whatever the rule, what an operation asks for refers to the mesh it is over. -/
theorem allValid_decide (ht : t.ValidDims g.program) {d : Direction} {decision : Decision}
    (h : g.decide o r d t = .ok (some decision)) :
    g.program.mesh decision.meshName = .ok decision.mesh ∧
      ∀ u ∈ decision.updates, AllValid decision.mesh u.axes := by
  obtain ⟨p, q, changed, hm, hname, hp, hq, hupdates⟩ := decide_eq_some h
  refine ⟨hm, allValid_updatesOf (FactorStep.known_propagateFactors
    (Projection.known_ofShardings (fun s hs => ?_) hp) hq) hupdates⟩
  obtain ⟨value, hvalue⟩ : ∃ v, t.get v = some s := by
    rw [← List.map_append] at hs
    obtain ⟨v, -, hv⟩ := List.mem_map.1 hs
    exact ⟨v, hv⟩
  obtain ⟨m, hm', hvalid⟩ := ht value s hvalue
  rw [(commonMesh_eq_some hname).2 s hs, hm] at hm'
  cases hm'
  exact hvalid

theorem validDims_refine {p : Program} {value dim : Nat} {axes : List AxisRef} {name : String}
    (ht : t.ValidDims p) (hm : p.mesh name = .ok m) (hv : AllValid m axes)
    (h : t.refine value dim axes name m = some t') : t'.ValidDims p := by
  obtain ⟨entry, s, hentry, hname, hs, rfl⟩ := ShardingTable.refine_eq_some_iff.1 h
  have hcurrent : (entry.sharding.getD (.fullyOpen name entry.rank)).ValidDims m := by
    cases hsharding : entry.sharding with
    | none => exact (TensorSharding.valid_fullyOpen ..).allValid_dims
    | some s =>
      rw [hsharding] at hname
      obtain ⟨m', hm', hvalid⟩ := ht value s (by simp [ShardingTable.get, hentry, hsharding])
      rw [show s.meshName = name from hname, hm] at hm'
      cases hm'
      exact hvalid
  have hkept : s.meshName = name := by
    obtain ⟨_, _, -, -, -, -, -, rfl⟩ := TensorSharding.refineDim_eq_some hs
    exact hname
  exact ht.put (hkept ▸ hm) (hcurrent.refineDim hv hs) value

theorem validDims_foldl_applyUpdate {operation : Nat} {d : Decision}
    {updates : List ShardingUpdate} {s : State}
    (hm : g.program.mesh d.meshName = .ok d.mesh) (hv : ∀ u ∈ updates, AllValid d.mesh u.axes)
    (hs : s.table.ValidDims g.program) :
    (updates.foldl (g.applyUpdate operation d) s).table.ValidDims g.program := by
  induction updates generalizing s with
  | nil => exact hs
  | cons u rest ih =>
    rw [List.forall_mem_cons] at hv
    refine ih hv.2 ?_
    rcases applyUpdate_cases g operation d s u with ⟨-, h⟩ | ⟨t, hrefine, htable, -, -⟩
    · rw [h]
      exact hs
    · rw [htable]
      exact validDims_refine hs hm hv.1 hrefine

/-- Every operation keeps the references of the table valid, whatever its rule. -/
theorem keeps_validDims (g : Propagator) : g.Keeps (ShardingTable.ValidDims g.program) := by
  intro directionOf operation s s' hs h
  obtain ⟨o, decision, -, hask, rfl⟩ := process_eq_ok_iff.1 h
  cases decision with
  | none => exact hs
  | some d =>
    obtain ⟨rule, -, hdecide⟩ := ask_eq_some hask
    obtain ⟨hm, hv⟩ := allValid_decide hs hdecide
    exact validDims_foldl_applyUpdate hm hv hs

end Propagator

namespace Admission

variable {m : Mesh} {p : Program} {user current : TensorSharding} {t t' : ShardingTable}

/-- Admission keeps the mesh, and takes only references of the user. -/
theorem validDims_admitDim (level : Option Nat) (value : Nat) (r : Recorder) {d : DimSharding}
    (h : current.ValidDims m)
    (hd : AllValid m d.axes) (dim : Nat) :
    (admitDim m level value current r dim d).1.meshName = current.meshName ∧
      (admitDim m level value current r dim d).1.ValidDims m := by
  unfold admitDim
  split
  · exact ⟨rfl, h⟩
  · dsimp only
    split
    · exact ⟨rfl, h⟩
    · split
      · exact ⟨rfl, h.modifyDim
          (f := fun old => { old with axes := d.axes, closed := d.closed }) (fun _ _ => hd) dim⟩
      · split
        · exact ⟨rfl, h.modifyDim (f := fun old => { old with closed := true }) h dim⟩
        · exact ⟨rfl, h⟩

theorem validDims_admitDims (level : Option Nat) (value : Nat) (r : Recorder)
    {dims : List DimSharding} (h : current.ValidDims m)
    (hdims : ∀ d ∈ dims, AllValid m d.axes) (dim : Nat) :
    (admitDims m level value dim dims current r).1.meshName = current.meshName ∧
      (admitDims m level value dim dims current r).1.ValidDims m := by
  induction dims generalizing current r dim with
  | nil => exact ⟨rfl, h⟩
  | cons d rest ih =>
    rw [List.forall_mem_cons] at hdims
    obtain ⟨hname, hfirst⟩ := validDims_admitDim level value r h hdims.1 dim
    obtain ⟨hname', hrest⟩ := ih _ hfirst hdims.2 (dim + 1)
    exact ⟨hname'.trans hname, hrest⟩

theorem validDims_admitSharding (level : Option Nat) (value : Nat) (r : Recorder)
    (ht : t.ValidDims p) (hm : p.mesh user.meshName = .ok m)
    (hu : user.ValidDims m) :
    p.Knows (admitSharding m level value user (t.get value) r).1 := by
  unfold admitSharding
  cases hget : t.get value with
  | none =>
    have hstart : (unadmitted user).ValidDims m := by
      intro d hd
      obtain ⟨_, -, rfl⟩ := List.mem_map.1 hd
      exact nofun
    obtain ⟨hname, hvalid⟩ := validDims_admitDims level value r hstart hu 0
    exact ⟨m, hname ▸ hm, hvalid⟩
  | some s =>
    obtain ⟨m', hm', hs⟩ := ht value s hget
    dsimp only
    split
    · rename_i hsame
      rw [hsame.1, hm] at hm'
      cases hm'
      obtain ⟨hname, hvalid⟩ := validDims_admitDims level value r hs hu 0
      exact ⟨m, by rw [hname, hsame.1, hm], hvalid⟩
    · exact ⟨m', hm', hs⟩

theorem validDims_admitValues {level : Option Nat} {value : Nat} {r r' : Recorder}
    {shardings : List (Option TensorSharding)}
    (hshardings : ∀ user, some user ∈ shardings → p.Knows user) (ht : t.ValidDims p)
    (h : admitValues p level value shardings t r = .ok (t', r')) : t'.ValidDims p := by
  induction shardings generalizing value t r with
  | nil => cases h; exact ht
  | cons first rest ih =>
    have hrest : ∀ user, some user ∈ rest → _ := fun user hu =>
      hshardings user (List.mem_cons_of_mem _ hu)
    cases first with
    | none => exact ih hrest ht h
    | some user =>
      obtain ⟨m, hm, h⟩ := bind_eq_ok_iff.1 h
      obtain ⟨t₁, ht₁, h⟩ := bind_eq_ok_iff.1 h
      obtain ⟨m', hm', hu⟩ := hshardings user List.mem_cons_self
      cases hm.symm.trans hm'
      refine ih hrest ?_ h
      obtain ⟨m', hm', hs⟩ := validDims_admitSharding level value r ht hm hu
      unfold ShardingTable.set at ht₁
      split at ht₁
      · cases ht₁
        exact ht.put hm' hs value
      · cases ht₁

end Admission

def Program.ValidDims (p : Program) : Prop := ∀ value s, p.sharding? value = some s → p.Knows s

namespace Admission

/-- Propagation keeps the references of a program valid, whatever its rules. -/
theorem validDims_propagate {g : Propagator} (hg : g.program.ValidDims)
    {heuristics : List Heuristic} {q : Program} {provenance : Provenance}
    (h : propagate g heuristics = .ok (q, provenance)) : q.ValidDims := by
  obtain ⟨⟨t, r⟩, hlevels, h⟩ := bind_eq_ok_iff.1 h
  cases h
  have ht : t.ValidDims g.program := by
    refine runLevels_induction (Propagator.keeps_validDims g)
      (fun level t r t' r' ht hadmit => validDims_admitValues (fun user hu => ?_) ht hadmit)
      (fun value s hs => ?_) hlevels
    · obtain ⟨value, hvalue⟩ := List.getElem?_of_mem hu
      refine hg value user ?_
      rw [userShardings, List.getElem?_map] at hvalue
      obtain ⟨v, hv, hsharding⟩ := Option.map_eq_some_iff.1 hvalue
      simp [Program.sharding?, hv, hsharding]
    · obtain ⟨m, hm, hvalid⟩ := (sound_ofRanks g.program).valid value s hs
      exact ⟨m, hm, (TensorSharding.validate_eq_ok_iff.1 hvalid).2.allValid_dims⟩
  intro value s hs
  simp only [Program.sharding?, store, List.getElem?_mapIdx] at hs
  obtain ⟨v, hv, hs⟩ := Option.bind_eq_some_iff.1 hs
  obtain ⟨old, hold, rfl⟩ := Option.map_eq_some_iff.1 hv
  cases hget : t.get value with
  | none =>
    rw [hget] at hs
    exact hg value s (by simp [Program.sharding?, hold, hs])
  | some x =>
    rw [hget] at hs
    cases hs
    obtain ⟨m, hm, hx⟩ := ht value x hget
    refine ⟨m, hm, fun d hd => ?_⟩
    obtain ⟨e, he, rfl⟩ := List.mem_map.1 hd
    exact hx e he

end Admission
end MeshSharding
