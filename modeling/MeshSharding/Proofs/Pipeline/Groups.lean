import MeshSharding.Proofs.Pipeline.Concurrence
import MeshSharding.Proofs.Pipeline.Operands

/-! Sharding groups. The operation of a group passes axes on between its members, and export leaves
them as they are. So they agree, unless something keeps one of them from taking the axes of the
others: no member is resharded to agree with the others. -/
namespace MeshSharding

open AxisList Program

namespace Program

/-- None of the values has a sharding, or all have one, of the same layout. -/
def Agrees (p : Program) (values : List Nat) : Prop :=
  (∀ v ∈ values, p.sharding? v = none) ∨ ∀ v ∈ values, ∀ w ∈ values, ∃ s t m,
    p.sharding? v = some s ∧ p.sharding? w = some t ∧ p.mesh s.meshName = .ok m ∧
      s.hasSameLayout t m = true

/-- Closing does not change whether values agree. -/
theorem Agrees.congr {p q : Program} {values : List Nat} (h : p.Agrees values)
    (hmesh : q.mesh = p.mesh) (hs : ∀ v ∈ values, (q.sharding? v).map TensorSharding.closedLike
      = (p.sharding? v).map TensorSharding.closedLike) : q.Agrees values := by
  rcases h with hnone | hsome
  · refine .inl fun v hv => ?_
    simpa [hnone v hv] using hs v hv
  · refine .inr fun v hv w hw => ?_
    obtain ⟨s, t, m, hsv, htw, hm, hlayout⟩ := hsome v hv w hw
    obtain ⟨s', hs', hsclosed⟩ := Option.map_eq_some_iff.1 ((hs v hv).trans (congrArg _ hsv))
    obtain ⟨t', ht', htclosed⟩ := Option.map_eq_some_iff.1 ((hs w hw).trans (congrArg _ htw))
    refine ⟨s', t', m, hs', ht', ?_, ?_⟩
    · rw [hmesh, TensorSharding.meshName_eq_of_closedLike hsclosed]
      exact hm
    · exact (TensorSharding.hasSameLayout_congr hsclosed htclosed).trans hlayout

end Program

namespace Import

variable {p q : Program} {group : List Nat} {groups : List (List Nat)}

theorem operations_addGroupOperation (h : addGroupOperation p group = .ok q) :
    p.operations ⊆ q.operations ∧ (group ≠ [] → ∃ shape, groupOf p group shape ∈ q.operations) := by
  cases group with
  | nil =>
    cases h
    exact ⟨List.Subset.refl _, fun hne => absurd rfl hne⟩
  | cons first rest =>
    obtain ⟨-, -, rfl⟩ := addGroupOperation_eq_ok h
    exact ⟨List.subset_append_left .., fun _ => ⟨_, List.mem_append_right _ List.mem_cons_self⟩⟩

/-- Every group gets its operation. -/
theorem operations_foldlM (h : groups.foldlM addGroupOperation p = .ok q) :
    p.operations ⊆ q.operations ∧ ∀ group ∈ groups, group ≠ [] →
      ∃ p' shape, groupOf p' group shape ∈ q.operations := by
  induction groups generalizing p with
  | nil =>
    cases h
    exact ⟨List.Subset.refl _, nofun⟩
  | cons group rest ih =>
    rw [List.foldlM_cons] at h
    obtain ⟨p', hgroup, h⟩ := bind_eq_ok_iff.1 h
    obtain ⟨hsub, hnew⟩ := operations_addGroupOperation hgroup
    obtain ⟨hsub', hrest⟩ := ih h
    refine ⟨List.Subset.trans hsub hsub', List.forall_mem_cons.2 ⟨fun hne => ?_, hrest⟩⟩
    obtain ⟨shape, hmem⟩ := hnew hne
    exact ⟨p, shape, hsub' hmem⟩

theorem exists_groupOf {c : Catalogue} (h : importProgram c p = .ok q) (hgroup : group ∈ p.groups)
    (hne : group ≠ []) : ∃ p' shape, groupOf p' group shape ∈ q.operations := by
  obtain ⟨operations, q', -, -, hgroups, rfl⟩ := steps_of_importProgram h
  exact (operations_foldlM hgroups).2 group hgroup hne

end Import

namespace Export

variable {p q : Program} {options : Options} {reshards : List InsertedReshard}

/-- The values of the program keep their shardings when collectives are inserted. -/
theorem sharding?_insertReshards
    (hoperands : ∀ o ∈ p.operations, ∀ v ∈ o.operands, v < p.values.length)
    (h : insertReshards options p = .ok (q, reshards)) :
    q.mesh = p.mesh ∧ ∀ v < p.values.length, q.sharding? v = p.sharding? v := by
  obtain ⟨mismatches, -, h⟩ := bind_eq_ok_iff.1 h
  split at h
  · cases h
    exact ⟨rfl, fun _ _ => rfl⟩
  · obtain ⟨⟨_, all⟩, hall, h⟩ := bind_eq_ok_iff.1 h
    cases h
    obtain ⟨_, extra, rfl, -, -⟩ := insertions_spec hall (Nat.le_refl _) hoperands id
    exact ⟨rfl, fun v hv => (withOperations_values ..).2.trans (sharding?_append_of_lt hv extra)⟩

theorem agrees_exportProgram {values : List Nat}
    (hoperands : ∀ o ∈ p.operations, ∀ v ∈ o.operands, v < p.values.length)
    (hvalues : ∀ v ∈ values, v < p.values.length)
    (h : exportProgram options p = .ok (q, reshards)) (hp : p.Agrees values) : q.Agrees values := by
  obtain ⟨s, hs, rfl⟩ := exportProgram_eq_ok h
  obtain ⟨hmesh, hkept⟩ := sharding?_insertReshards (p := withoutGroups p) (fun o ho v hv =>
    (length_withoutGroups p).symm ▸ hoperands o (List.mem_filter.1 ho).1 v hv) hs
  refine hp.congr ((mesh_finish ..).trans hmesh) fun v hv => ?_
  rw [sharding?_finish, hkept v ((length_withoutGroups p).symm ▸ hvalues v hv)]
  exact congrArg _ (withOperations_values ..).2

end Export

namespace Propagator

variable {t : ShardingTable} {m : Mesh} {o : Operation} {shape : Shape} {p : Projection}
  {i v k : Nat}

/-- The factors of an operand of an identity have the axes of its dimensions. -/
theorem axesOf_identity (hp : Projection.ofShardings m (Rule.identity shape o.operands.length 1)
      (o.operands.map t.get) (o.results.map t.get) = .ok p)
    (hv : o.operands[i]? = some v) (hvalid : ∀ s ∈ t.get v, s.Valid m) (hk : k < shape.length) :
    FactorStep.axesOf p ⟨.operand, i⟩ k = (TensorSharding.dimOf (t.get v) k).axes := by
  have hmapping : (Rule.identity shape o.operands.length 1).mapping? ⟨.operand, i⟩ = _ :=
    Rule.mapping?_identity shape (List.getElem?_eq_some_iff.1 hv).1
  obtain ⟨tensor, htensor⟩ : ∃ tensor, p.tensor? ⟨.operand, i⟩ = some tensor := by
    obtain ⟨os, hos, h⟩ := bind_eq_ok_iff.1 hp
    obtain ⟨rs, -, h⟩ := bind_eq_ok_iff.1 h
    cases h
    refine ⟨_, List.getElem?_eq_getElem ?_⟩
    rw [Projection.tensors, Projection.length_projectAll hos]
    exact (List.getElem?_eq_some_iff.1 hmapping).1
  obtain ⟨_, hmapping', hproject⟩ := (tensor?_ofShardings hp).1 htensor
  cases hmapping.symm.trans hmapping'
  have hvalue : o.value? ⟨.operand, i⟩ = some v := hv
  rw [hvalue, Option.bind_some] at hproject
  have hdim : (Mapping.diagonal shape.length shape.length).dims[k]? = some [k] := by
    rw [Mapping.diagonal_self, List.getElem?_map, List.getElem?_range hk]
    rfl
  have hnodup : (Mapping.diagonal shape.length shape.length).dims.flatten.Nodup := by
    rw [Mapping.diagonal_self, ← List.flatMap_def, List.flatMap_singleton']
    exact List.nodup_range
  obtain ⟨part, hpart, -, hall⟩ := TensorFactors.exists_part hvalid hnodup hproject hdim
  cases hpart
  have hfactor := hall _ List.mem_cons_self
  rw [FactorStep.axesOf, Projection.factor?, htensor, Option.bind_some, hfactor]
  rfl

end Propagator

namespace Pipeline

variable {l : Pipeline} {p imported propagated : Program} {provenance : Provenance} {o : Operation}
  {m : Mesh} {projection : Projection} {shape : Shape}

/-- Nothing keeps the operands of the operation from ending up alike: they wait for sums over the
same axes, those without axes are sharded if others are, and in each dimension every operand has
or can take the axes that the operation passes on. -/
structure Unhindered (l : Pipeline) (q : Program) (o : Operation) (r : Rule) (m : Mesh)
    (projection : Projection) : Prop extends Carries l q o r m projection where
  unreduced : ∀ v ∈ o.operands, ∀ w ∈ o.operands, ∀ s t, q.sharding? v = some s →
    q.sharding? w = some t → equivalent m s.unreduced t.unreduced = true
  sharded : (∀ v ∈ o.operands, (q.sharding? v).isSome) ∨
    ∃ v ∈ o.operands, ∃ s, q.sharding? v = some s ∧ s.dimAxes ≠ []
  concurs : ∀ k < r.factorCount, (l.factorStep m).concur r projection k
    ((List.range o.operands.length).map fun i => ⟨.operand, i⟩) = true

namespace Unhindered

variable (h : Unhindered l propagated o (Rule.identity shape o.operands.length 1) m projection)
  (himport : Import.Imports l.catalogue p imported)
  (hpropagate : l.propagateStage imported = .ok (propagated, provenance))
  (ho : o ∈ propagated.operations)

include h himport hpropagate ho

/-- The shardings of the members are valid for one shape over one mesh. -/
theorem exists_name : ∃ name, propagated.mesh name = .ok m ∧
    ∀ (i v : Nat), o.operands[i]? = some v → ∀ s ∈ propagated.sharding? v,
      s.meshName = name ∧ s.rank = shape.length ∧ s.Valid m := by
  obtain ⟨-, hconsistent⟩ := consistent_of_propagate himport hpropagate
  have hget : propagated.table.get = propagated.sharding? := funext fun v => get_table ..
  obtain ⟨name, hm, hname⟩ := h.mesh
  refine ⟨name, hm, fun i v hv s hs => ?_⟩
  obtain ⟨_, hv', hmaps⟩ := Propagator.exists_maps (hconsistent.rules o ho _ h.rule)
    (Rule.mapping?_identity shape (List.getElem?_eq_some_iff.1 hv).1)
  cases hv.symm.trans hv'
  rw [← hget] at hname hs
  obtain ⟨hrank, hvalid⟩ := Propagator.valid_of_value? (g := ⟨propagated, l.options, l.policy⟩)
    (sound_table hconsistent.values) hm hname hv' hs
  refine ⟨(Propagator.commonMesh_eq_some hname).2 s ?_, ?_, hvalid⟩
  · exact List.mem_append_left _ (List.mem_map.2 ⟨v, List.mem_of_getElem? hv, hs⟩)
  · rw [hrank, ← hmaps.rank, Mapping.diagonal_rank]

/-- The members have the same axes in each dimension. -/
theorem exists_dimAxes {k : Nat} (hk : k < shape.length) : ∃ axes, ∀ v ∈ o.operands,
    mergeAdjacent m (TensorSharding.dimOf (propagated.sharding? v) k).axes = axes := by
  have hfactors := Rule.factors_identity shape (show 0 < o.operands.length + 1 from Nat.succ_pos _)
  have hflows : (Rule.identity shape o.operands.length 1).factors[k]?.any FactorStep.flows
      = true := by
    rw [hfactors, List.getElem?_map, List.getElem?_eq_getElem hk]
    rfl
  have hcount : k < (Rule.identity shape o.operands.length 1).factorCount := by
    rwa [Rule.factorCount, hfactors, List.length_map]
  obtain ⟨axes, haxes⟩ := h.exists_axes himport hpropagate ho hflows (h.concurs k hcount)
  obtain ⟨_, -, hvalid⟩ := h.exists_name himport hpropagate ho
  have hget : propagated.table.get = propagated.sharding? := funext fun v => get_table ..
  have hp := h.projects
  rw [← hget] at hp hvalid ⊢
  refine ⟨axes, fun v hv => ?_⟩
  obtain ⟨i, hi⟩ := List.getElem?_of_mem hv
  rw [← Propagator.axesOf_identity hp hi (fun s hs => (hvalid i v hi s hs).2.2) hk]
  exact haxes _ (List.mem_map.2 ⟨i, List.mem_range.2 (List.getElem?_eq_some_iff.1 hi).1, rfl⟩)

/-- Axes of one member are axes of all, so none is left without a sharding. -/
theorem isSome_sharding? : ∀ v ∈ o.operands, (propagated.sharding? v).isSome := by
  refine h.sharded.elim id ?_
  rintro ⟨v, hv, s, hs, hne⟩ w hw
  obtain ⟨i, hi⟩ := List.getElem?_of_mem hv
  obtain ⟨_, -, hvalid⟩ := h.exists_name himport hpropagate ho
  obtain ⟨_, hrank, -⟩ := hvalid i v hi s hs
  obtain ⟨d, hd, hne⟩ : ∃ d ∈ s.dims, d.axes ≠ [] := by
    simpa [TensorSharding.dimAxes] using hne
  obtain ⟨k, hk⟩ := List.getElem?_of_mem hd
  obtain ⟨axes, haxes⟩ := h.exists_dimAxes himport hpropagate ho
    ((List.getElem?_eq_some_iff.1 hk).1.trans_eq hrank)
  by_contra hnone
  rw [Option.not_isSome_iff_eq_none] at hnone
  have hsame := (haxes v hv).trans (haxes w hw).symm
  rw [hs, hnone] at hsame
  refine hne ((mergeAdjacent_eq_nil_iff (m := m)).1 ?_)
  simpa [TensorSharding.dimOf, hk, DimSharding.ofAxes] using hsame

/-- Behind propagation the members agree. -/
theorem agrees : propagated.Agrees o.operands := by
  obtain ⟨name, hm, hvalid⟩ := h.exists_name himport hpropagate ho
  have hall := h.isSome_sharding? himport hpropagate ho
  refine .inr fun v hv w hw => ?_
  obtain ⟨s, hs⟩ := Option.isSome_iff_exists.1 (hall v hv)
  obtain ⟨t, ht⟩ := Option.isSome_iff_exists.1 (hall w hw)
  obtain ⟨i, hi⟩ := List.getElem?_of_mem hv
  obtain ⟨j, hj⟩ := List.getElem?_of_mem hw
  obtain ⟨hsname, hsrank, -⟩ := hvalid i v hi s hs
  obtain ⟨htname, htrank, -⟩ := hvalid j w hj t ht
  refine ⟨s, t, m, hs, ht, hsname ▸ hm, TensorSharding.hasSameLayout_iff.2
    ⟨hsname.trans htname.symm, hsrank.trans htrank.symm,
      of_decide_eq_true (h.unreduced v hv w hw s t hs ht), fun k d e hd he => ?_⟩⟩
  obtain ⟨axes, haxes⟩ := h.exists_dimAxes himport hpropagate ho
    ((List.getElem?_eq_some_iff.1 hd).1.trans_eq hsrank)
  have hsame := (haxes v hv).trans (haxes w hw).symm
  simpa [TensorSharding.dimOf, hs, ht, hd, he] using hsame

end Unhindered

/-- Behind a run the members of a group agree, unless they have shardings and something hinders the
operation of the group. -/
theorem agrees_of_run (l : Pipeline) (p exported : Program) (report : Report) (hp : p.WellFormed)
    (hlinked : p.Linked) (hverify : p.RulesVerify) (hrun : l.run p = .ok (exported, report))
    (group : List Nat) (hgroup : group ∈ p.groups)
    (hfree : ∀ imported propagated, l.importStage p = .ok imported →
      l.propagateStage imported = .ok (propagated, report.provenance) →
      ∀ o ∈ propagated.operations, o.operands = group → ∀ shape,
        o.rule = some (Rule.identity shape group.length 1) →
        (∃ v ∈ group, (propagated.sharding? v).isSome) →
        ∃ m projection, Unhindered l propagated o (Rule.identity shape group.length 1) m
          projection) :
    exported.Agrees group := by
  cases group with
  | nil => exact .inl nofun
  | cons first rest =>
    generalize hmembers : first :: rest = group at *
    obtain ⟨imported, propagated, himport, hpropagate, hexport⟩ := stages_of_run hrun
    have himports := Import.imports_importProgram hlinked (fun o ho => hp.operands_lt ho)
      (fun o ho _ r hr => hverify o ho r hr) himport
    obtain ⟨hoperations, hconsistent⟩ := consistent_of_propagate himports hpropagate
    obtain ⟨p', shape, hmem⟩ := Import.exists_groupOf himport hgroup (by simp [← hmembers])
    rw [← hoperations] at hmem
    refine Export.agrees_exportProgram hconsistent.operands_lt (hconsistent.operands_lt _ hmem)
      hexport ?_
    by_cases hsharded : ∃ v ∈ group, (propagated.sharding? v).isSome
    · obtain ⟨m, projection, hfree⟩ :=
        hfree imported propagated himport hpropagate _ hmem rfl shape rfl hsharded
      exact hfree.agrees himports hpropagate hmem
    · exact .inl fun v hv => by simpa using fun hsome => hsharded ⟨v, hv, hsome⟩

/-- A group of two values. -/
def paired (s t : Option TensorSharding) : Program where
  meshes := [("mesh", .grid 2 2 Nat.two_pos Nat.two_pos)]
  values := [⟨[8], s, none⟩, ⟨[8], t, none⟩]
  operations := []
  arguments := [0, 1]
  outputs := [0, 1]
  groups := [[0, 1]]

theorem wellFormed_paired (s t : Option TensorSharding) : (paired s t).WellFormed :=
  ⟨by simp [paired], by simp [paired], trivial⟩

theorem linked_paired (s t : Option TensorSharding) : (paired s t).Linked :=
  ⟨nofun, by simp [paired]⟩

theorem rulesVerify_paired (s t : Option TensorSharding) : (paired s t).RulesVerify := nofun

/-- An open sharding of such a value. -/
def openAlong (axis : String) : TensorSharding := .ofDims "mesh" [.ofAxes [.full axis] false]

/-- The second value takes the axis of the first one. -/
theorem agrees_of_run_paired : ∃ exported report,
    (ofOptions .default).run (paired (some (openAlong "x")) none) = .ok (exported, report) ∧
      exported.sharding? 1 = some (openAlong "x").closedLike ∧ exported.Agrees [0, 1] := by
  let l := ofOptions .default
  let p := paired (some (openAlong "x")) none
  let o : Operation :=
    ⟨Catalogue.groupOperation, [0, 1], [2], [], some (Rule.identity [8] 2 1)⟩
  let q : Program := { p with
    values := [⟨[8], some (openAlong "x"), none⟩, ⟨[8], some (openAlong "x"), none⟩,
      ⟨[8], some (openAlong "x"), some 0⟩]
    operations := [o]
    groups := [] }
  have h : (do
      let (exported, _) ← l.run p
      return exported.sharding? 1) = Except.ok (some (openAlong "x").closedLike) :=
    eq_ok_of_toOption (by decide +kernel)
  have hstages : (do
      let imported ← l.importStage p
      let (propagated, _) ← l.propagateStage imported
      return propagated) = Except.ok q := eq_ok_of_toOption (by decide +kernel)
  obtain ⟨⟨exported, report⟩, hrun, h⟩ := bind_eq_ok_iff.1 h
  refine ⟨exported, report, hrun, Except.ok.inj h, agrees_of_run l p exported report
    (wellFormed_paired _ _) (linked_paired _ _) (rulesVerify_paired _ _) hrun [0, 1]
    List.mem_cons_self fun imported propagated himport hpropagate o' ho' _ shape hshape _ => ?_⟩
  obtain ⟨_, himport', hstages⟩ := bind_eq_ok_iff.1 hstages
  cases himport.symm.trans himport'
  obtain ⟨_, hpropagate', hstages⟩ := bind_eq_ok_iff.1 hstages
  cases hpropagate.symm.trans hpropagate'
  obtain rfl : propagated = q := Except.ok.inj hstages
  obtain rfl := List.mem_singleton.1 ho'
  have hrule : Rule.identity shape 2 1 = Rule.identity [8] 2 1 := (Option.some.inj hshape).symm
  rw [show ([0, 1] : List Nat).length = 2 from rfl, hrule]
  let factors : TensorFactors := ⟨[(0, ⟨[.full "x"], false, true, []⟩)], [], []⟩
  refine ⟨.grid 2 2 Nat.two_pos Nat.two_pos, ⟨[factors, factors], [factors]⟩,
    ⟨rfl, Propagator.direction_standard_last o, ⟨"mesh", rfl, rfl⟩, ?_,
      eq_ok_of_toOption (by decide +kernel)⟩, ?_, .inl (by decide), by decide +kernel⟩
  · unfold Mesh.NoUnitAxes
    decide
  · intro v hv w hw s t hs ht
    rcases List.mem_pair.1 hv with rfl | rfl <;> rcases List.mem_pair.1 hw with rfl | rfl <;>
    · cases hs
      cases ht
      rfl

/-- Of two open values that are sharded along different axes, neither can take that of the other. -/
theorem not_agrees_of_run_paired :
    let p := paired (some (openAlong "x")) (some (openAlong "y"))
    p.WellFormed ∧ p.Linked ∧ p.RulesVerify ∧ [0, 1] ∈ p.groups ∧ ∃ exported report,
      (ofOptions .default).run p = .ok (exported, report) ∧ ¬ exported.Agrees [0, 1] := by
  intro p
  refine ⟨wellFormed_paired _ _, linked_paired _ _, rulesVerify_paired _ _, List.mem_cons_self, ?_⟩
  have h : (do
      let (exported, _) ← (ofOptions .default).run p
      return (exported.meshes, exported.sharding? 0, exported.sharding? 1))
        = Except.ok (p.meshes, some (openAlong "x").closedLike, some (openAlong "y").closedLike) :=
    eq_ok_of_toOption (by decide +kernel)
  obtain ⟨⟨exported, report⟩, hrun, h⟩ := bind_eq_ok_iff.1 h
  obtain ⟨hmeshes, hfirst, hsecond⟩ : exported.meshes = p.meshes ∧
      exported.sharding? 0 = some (openAlong "x").closedLike ∧
      exported.sharding? 1 = some (openAlong "y").closedLike := by simpa using Except.ok.inj h
  refine ⟨exported, report, hrun, ?_⟩
  rintro (hnone | hsome)
  · cases hfirst.symm.trans (hnone 0 List.mem_cons_self)
  · obtain ⟨s, t, m, hs, ht, hm, hlayout⟩ := hsome 0 (by decide) 1 (by decide)
    cases hfirst.symm.trans hs
    cases hsecond.symm.trans ht
    rw [Program.mesh, hmeshes] at hm
    cases hm
    revert hlayout
    decide

end Pipeline
end MeshSharding
