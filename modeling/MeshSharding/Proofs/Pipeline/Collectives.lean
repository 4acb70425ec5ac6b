import MeshSharding.Proofs.Collective.Closing
import MeshSharding.Proofs.Pipeline.Mismatch
import MeshSharding.Proofs.Pipeline.Preservation
import MeshSharding.Proofs.Propagation.ValidDims
import MeshSharding.Proofs.Resharding.Outcome

/-! Inserted collectives. The values along a chain have the shardings that its collectives
lead to, except for the last one, which is given the sharding that is expected. Both make the
same shards, but on a mesh with axes of size 1 they may differ in references to these. -/
namespace MeshSharding

open AxisList Program

namespace TensorSharding

variable {m : Mesh} {s t u v : TensorSharding}

theorem forall_dims_closedLike {α : Type} (f : List AxisRef → α) :
    (∀ (dim : Nat) (d e : DimSharding), s.closedLike.dims[dim]? = some d →
        t.closedLike.dims[dim]? = some e → f d.axes = f e.axes) ↔
      ∀ (dim : Nat) (d e : DimSharding), s.dims[dim]? = some d → t.dims[dim]? = some e →
        f d.axes = f e.axes := by
  simp only [closedLike_dims, Option.map_eq_some_iff]
  constructor
  · intro h dim d e hd he
    exact h dim d.close e.close ⟨d, hd, rfl⟩ ⟨e, he, rfl⟩
  · rintro h dim _ _ ⟨d, hd, rfl⟩ ⟨e, he, rfl⟩
    exact h dim d e hd he

theorem hasSameLayout_closedLike (s t : TensorSharding) (m : Mesh) :
    s.closedLike.hasSameLayout t.closedLike m = s.hasSameLayout t m := by
  rw [Bool.eq_iff_iff, hasSameLayout_iff, hasSameLayout_iff,
    forall_dims_closedLike (mergeAdjacent m), closedLike_rank, closedLike_rank]
  rfl

theorem sameCores_closedLike : s.closedLike.SameCores m t.closedLike ↔ s.SameCores m t := by
  constructor
  · rintro ⟨hmesh, hrank, hunreduced, hdims⟩
    exact ⟨hmesh, by simpa using hrank, hunreduced, (forall_dims_closedLike (core m)).1 hdims⟩
  · rintro ⟨hmesh, hrank, hunreduced, hdims⟩
    exact ⟨hmesh, by simpa using hrank, hunreduced, (forall_dims_closedLike (core m)).2 hdims⟩

/-- Both shardings make the same shards, and have one layout if no axis has size 1. -/
structure Alike (m : Mesh) (s t : TensorSharding) : Prop where
  cores : s.SameCores m t
  layout : m.NoUnitAxes → s.hasSameLayout t m = true

theorem Alike.refl (m : Mesh) (s : TensorSharding) : s.Alike m s := by
  refine ⟨⟨rfl, rfl, rfl, fun dim d e hd he => ?_⟩, fun _ => hasSameLayout_refl s m⟩
  cases hd.symm.trans he
  rfl

/-- Closing shardings does not change which shards they make. -/
theorem Alike.closedLike (h : s.Alike m t) (hu : u.closedLike = s.closedLike) :
    u.Alike m t.closedLike := by
  constructor
  · rw [← sameCores_closedLike, hu, closedLike_closedLike, sameCores_closedLike]
    exact h.cores
  · intro hm
    rw [← hasSameLayout_closedLike, hu, closedLike_closedLike, hasSameLayout_closedLike]
    exact h.layout hm

end TensorSharding

namespace Program

variable {p q : Program} {o : Operation}

/-- The collective of the operation can be applied to the sharding of its operand, and leads
to one that is alike to the sharding of its result. -/
def Performs (p : Program) (o : Operation) : Prop :=
  ∃ c a b s t m u, o = Export.collectiveOperation c a b ∧ p.sharding? a = some s ∧
    p.sharding? b = some t ∧ p.mesh s.meshName = .ok m ∧ c.apply s m = .ok u ∧ u.Alike m t

/-- Operations that create values are collectives that do what the shardings say. -/
def PerformsFrom (n : Nat) (p : Program) : Prop :=
  ∀ o ∈ p.operations, creates n o = true → p.Performs o

theorem Performs.mono (h : p.Performs o) (hm : q.meshes = p.meshes)
    (hs : ∀ v s, p.sharding? v = some s → q.sharding? v = some s) : q.Performs o := by
  obtain ⟨c, a, b, s, t, m, u, heq, hsource, htarget, hmesh, h⟩ := h
  refine ⟨c, a, b, s, t, m, u, heq, hs a s hsource, hs b t htarget, ?_, h⟩
  rw [Program.mesh, hm]
  exact hmesh

theorem sharding?_append {v : Nat} {s : TensorSharding} (h : p.sharding? v = some s)
    (extra : List Value) : ({ p with values := p.values ++ extra }).sharding? v = some s := by
  obtain ⟨x, hx, h⟩ := Option.bind_eq_some_iff.1 h
  have hlt := (List.getElem?_eq_some_iff.1 hx).1
  rw [sharding?, List.getElem?_append_left hlt, hx]
  exact h

theorem lt_of_sharding? {v : Nat} {s : TensorSharding} (h : p.sharding? v = some s) :
    v < p.values.length := by
  obtain ⟨x, hx, -⟩ := Option.bind_eq_some_iff.1 h
  exact (List.getElem?_eq_some_iff.1 hx).1

end Program

namespace Export

variable {p q : Program} {options : Options} {m : Mesh} {expected s : TensorSharding} {n : Nat}

/-- The sharding that the result of a collective is given is what the collective leads to, and
from there the rest of the chain leads on. For the last collective the chain ends there. -/
theorem alike_next {c : Collective} {rest : List Collective} {applied : TensorSharding}
    (happly : c.apply s m = .ok applied) (hexpected : expected.ValidDims m)
    (hend : ∀ t, Collective.applyAll (c :: rest) s m = .ok t →
      t.SameCores m expected ∧ t.ValidDims m) :
    let next := if rest.isEmpty then expected else applied
    applied.Alike m next ∧ ∀ t, Collective.applyAll rest next m = .ok t →
      t.SameCores m expected ∧ t.ValidDims m := by
  have hcons : ∀ t, Collective.applyAll rest applied m = .ok t →
      t.SameCores m expected ∧ t.ValidDims m := fun t ht =>
    hend t (Collective.applyAll_cons_eq_ok_iff.2 ⟨applied, happly, ht⟩)
  cases rest with
  | nil =>
    obtain ⟨hcores, hvalid⟩ := hcons applied rfl
    refine ⟨⟨hcores, fun hsize => hcores.hasSameLayout hsize hvalid hexpected⟩, fun t ht => ?_⟩
    cases ht
    exact ⟨(TensorSharding.Alike.refl m expected).cores, hexpected⟩
  | cons c' rest => exact ⟨.refl m applied, hcons⟩

/-- Each collective of a chain leads to the sharding that its result is given. -/
theorem performs_chain {shape : Shape} {value last : Nat} {cs : List Collective}
    {operations : List Operation}
    (h : chain m shape expected p value s cs = .ok (q, operations, last))
    (hs : p.sharding? value = some s) (hm : p.mesh s.meshName = .ok m)
    (hexpected : expected.ValidDims m)
    (hend : ∀ t, Collective.applyAll cs s m = .ok t → t.SameCores m expected ∧ t.ValidDims m) :
    ∀ o ∈ operations, q.Performs o := by
  induction cs generalizing p value s operations with
  | nil => cases h; nofun
  | cons c rest ih =>
    rw [chain] at h
    obtain ⟨applied, happly, h⟩ := bind_eq_ok_iff.1 h
    obtain ⟨⟨q', operations', last'⟩, hchain, h⟩ := bind_eq_ok_iff.1 h
    cases h
    obtain ⟨halike, hrest⟩ := alike_next happly hexpected hend
    generalize (if rest.isEmpty then expected else applied) = next at hchain halike hrest
    have hname : next.meshName = s.meshName :=
      halike.cores.meshName.symm.trans (Collective.meshName_of_apply happly)
    have hnew : (p.pushValue ⟨shape, some next, none⟩).1.sharding? p.values.length = some next := by
      simp [sharding?, pushValue]
    have hfirst : (p.pushValue ⟨shape, some next, none⟩).1.Performs
        (collectiveOperation c value p.values.length) :=
      ⟨c, value, p.values.length, s, next, m, applied, rfl, sharding?_append hs _, hnew, hm,
        happly, halike⟩
    obtain ⟨_, extra, rfl, -⟩ := chain_spec hchain (lt_of_sharding? hnew) (Nat.zero_le _) id
    intro o ho
    rcases List.mem_cons.1 ho with rfl | ho
    · exact hfirst.mono rfl fun v t ht => sharding?_append ht extra
    · exact ih hchain hnew (hname ▸ hm) hrest o ho

/-- The chain of a resharding, if both shardings refer to the mesh. -/
theorem performs_reshard {shape : Shape} {source last : Nat} {cs : List Collective}
    {operations : List Operation} (hs : p.sharding? source = some s) (hsource : p.Knows s)
    (hexpected : p.Knows expected) (hm : p.mesh expected.meshName = .ok m)
    (hcs : Resharding.reshard s expected m = .ok cs)
    (h : chain m shape expected p source s cs = .ok (q, operations, last)) :
    ∀ o ∈ operations, q.Performs o := by
  obtain ⟨m₁, hm₁, hsource⟩ := hsource
  obtain ⟨m₂, hm₂, hexpected⟩ := hexpected
  have hname : s.meshName = expected.meshName := (Resharding.reshard_eq_ok hcs).1
  cases hm.symm.trans hm₂
  cases (hname ▸ hm).symm.trans hm₁
  exact performs_chain h hs hm₁ hexpected fun t ht =>
    Resharding.sameCores_of_applyAll_reshard hsource hexpected hcs ht

section mismatches

/-- What is expected is over the mesh of the operand. -/
theorem validDims_expectation {o : Operation} {r : Rule} {operand value reference : Nat}
    (h : expectation p o r operand value = .ok (some (expected, reference))) :
    p.Knows expected := by
  obtain ⟨c, dims, -, rfl, hvalidate⟩ := exists_comparison h
  exact ⟨c.mesh, c.mesh_eq, (TensorSharding.validate_eq_ok_iff.1 hvalidate).2.allValid_dims⟩

theorem validDims_of_mem {mismatches : List Mismatch} {x : Mismatch}
    (h : mismatchesFrom options p 0 p.operations = .ok mismatches) (hx : x ∈ mismatches) :
    p.Knows x.expected := by
  obtain ⟨_, _, _, _, -, -, -, hexpectation⟩ := arises_of_mem h hx
  exact validDims_expectation hexpectation

end mismatches

/-- The chains for mismatches lead from shardings to what is expected instead of them. -/
theorem performs_insertions {mismatches : List Mismatch} {all : List Insertion}
    (h : insertions p mismatches = .ok (q, all)) (hn : n ≤ p.values.length)
    (hoperands : ∀ o ∈ p.operations, ∀ a ∈ o.operands, a < n)
    (hvalid : ∀ v < n, ∀ s, p.sharding? v = some s → p.Knows s)
    (hexpected : ∀ x ∈ mismatches, p.Knows x.expected) :
    ∀ i ∈ all, ∀ o ∈ i.operations, q.Performs o := by
  induction mismatches generalizing p all with
  | nil => cases h; nofun
  | cons x rest ih =>
    rw [List.forall_mem_cons] at hexpected
    obtain ⟨h, -⟩ | ⟨o, source, s, m, cs, shape, p', operations, value, more, ho, hsource, hs, -,
      hm, hcs, -, hchain, hmore, rfl⟩ := insertions_cons_eq_ok h
    · exact ih h hn hoperands hvalid hexpected.2
    · have hlt : source < n :=
        hoperands o (List.mem_of_getElem? ho) source (List.mem_of_getElem? hsource)
      have hperforms := performs_reshard hs (hvalid source hlt s hs) hexpected.1 hm hcs hchain
      obtain ⟨_, extra, rfl, -⟩ :=
        chain_spec hchain (Nat.lt_of_lt_of_le hlt hn) (Nat.zero_le _) id
      have hle : n ≤ (p.values ++ extra).length := by
        rw [List.length_append]
        omega
      -- The chain is behind the values whose shardings are known to be valid.
      have hvalid' : ∀ v < n, ∀ s, ({ p with values := p.values ++ extra }).sharding? v = some s →
          p.Knows s := by
        intro v hv s hs
        rw [sharding?_append_of_lt (Nat.lt_of_lt_of_le hv hn)] at hs
        exact hvalid v hv s hs
      obtain ⟨_, extra', rfl, -⟩ := insertions_spec hmore hle hoperands id
      intro i hi
      rcases List.mem_cons.1 hi with rfl | hi
      · exact fun o ho => (hperforms o ho).mono rfl fun v t ht => sharding?_append ht extra'
      · exact ih hmore hle hoperands hvalid' hexpected.2 i hi

theorem performsFrom_insertReshards {reshards : List InsertedReshard} (hvalid : p.ValidDims)
    (hoperands : ∀ o ∈ p.operations, ∀ a ∈ o.operands, a < p.values.length)
    (hresults : ∀ o ∈ p.operations, ∀ a ∈ o.results, a < p.values.length)
    (h : insertReshards options p = .ok (q, reshards)) : q.PerformsFrom p.values.length := by
  rw [insertReshards] at h
  obtain ⟨mismatches, hmismatches, h⟩ := bind_eq_ok_iff.1 h
  split at h
  · cases h
    intro o ho hc
    rw [creates_eq_false_iff.2 (hresults o ho)] at hc
    cases hc
  · obtain ⟨⟨p', all⟩, hinsert, h⟩ := bind_eq_ok_iff.1 h
    cases h
    obtain ⟨_, extra, rfl, -⟩ := insertions_spec hinsert (Nat.le_refl _) hoperands id
    intro o ho hc
    obtain ⟨i, hi, hoi⟩ := exists_insertion_of_creates hresults 0 0 o ho hc
    have hperforms := performs_insertions hinsert (Nat.le_refl _) hoperands
      (fun v _ => hvalid v) (fun _ => validDims_of_mem hmismatches) i hi o hoi
    exact hperforms.mono rfl fun v s hs => by rwa [(withOperations_values _ _ v).2]

theorem PerformsFrom.dropRules (h : p.PerformsFrom n) : (dropRules p).PerformsFrom n := by
  intro o ho hc
  obtain ⟨o', ho', rfl⟩ := List.mem_map.1 ho
  obtain ⟨c, a, b, s, t, m, u, rfl, hperforms⟩ := h o' ho' hc
  exact ⟨c, a, b, s, t, m, u, rfl, hperforms⟩

theorem sharding?_closeShardings (p : Program) (v : Nat) :
    (closeShardings p).sharding? v = (p.sharding? v).map TensorSharding.closedLike := by
  simp only [sharding?, closeShardings, List.getElem?_map]
  cases p.values[v]? <;> rfl

theorem PerformsFrom.closeShardings (h : p.PerformsFrom n) :
    (closeShardings p).PerformsFrom n := by
  intro o ho hc
  obtain ⟨c, a, b, s, t, m, u, heq, hs, ht, hm, happly, halike⟩ := h o ho hc
  obtain ⟨u', happly', hu'⟩ := Collective.apply_closedLike happly
  refine ⟨c, a, b, s.closedLike, t.closedLike, m, u', heq, ?_, ?_, hm, happly',
    halike.closedLike hu'⟩
  · rw [sharding?_closeShardings, hs]
    rfl
  · rw [sharding?_closeShardings, ht]
    rfl

theorem performsFrom_exportProgram {reshards : List InsertedReshard}
    (hvalid : (withoutGroups p).ValidDims)
    (hoperands : ∀ o ∈ (withoutGroups p).operations, ∀ a ∈ o.operands,
      a < (withoutGroups p).values.length)
    (hresults : ∀ o ∈ (withoutGroups p).operations, ∀ a ∈ o.results,
      a < (withoutGroups p).values.length)
    (h : exportProgram options p = .ok (q, reshards)) :
    q.PerformsFrom (withoutGroups p).values.length :=
  exportProgram_keeps (motive := fun q => q.PerformsFrom (withoutGroups p).values.length) h
    (fun _ => performsFrom_insertReshards hvalid hoperands hresults)
    (fun _ => PerformsFrom.dropRules) fun _ => PerformsFrom.closeShardings

end Export

/-- Import accepts only shardings that are valid over a mesh of the program. -/
theorem Import.validDims_importProgram {p q : Program} {c : Catalogue}
    (h : importProgram c p = .ok q) : q.ValidDims := by
  have hextends := extends_importProgram h
  obtain ⟨_, hcheck, -⟩ := bind_eq_ok_iff.1 h
  intro v s hs
  rw [hextends.shardings v] at hs
  obtain ⟨x, hx, hsharding⟩ := Option.bind_eq_some_iff.1 hs
  obtain ⟨m, hm, hvalid⟩ := checkValue_eq_ok_iff.1
    (eq_ok_of_forM hcheck x (List.mem_of_getElem? hx)) s hsharding
  refine ⟨m, ?_, (TensorSharding.validate_eq_ok_iff.1 hvalid).2.allValid_dims⟩
  rw [Program.mesh, hextends.meshes]
  exact hm

namespace Pipeline

/-- Every collective that a run inserts can be applied to the sharding of its operand, and
leads to one that is alike to the sharding of its result. -/
theorem performs_of_run (l : Pipeline) (p exported : Program) (report : Report)
    (hp : p.WellFormed) (hrun : l.run p = .ok (exported, report)) :
    ∃ imported, l.importStage p = .ok imported ∧
      ∀ o ∈ exported.operations, creates imported.values.length o = true →
        exported.Performs o := by
  obtain ⟨imported, propagated, himport, hpropagate, hexport⟩ := stages_of_run hrun
  refine ⟨imported, himport, ?_⟩
  have hextends := Import.extends_importProgram himport
  have hvalid : propagated.ValidDims :=
    Admission.validDims_propagate (g := ⟨imported, l.options, l.policy⟩)
      (Import.validDims_importProgram himport) hpropagate
  obtain ⟨t, rfl⟩ := Admission.propagate_eq hpropagate
  have hlen : (Export.withoutGroups (Admission.store imported t)).values.length
      = imported.values.length := by simp
  have hold := exists_operation_of_withoutGroups hextends t
  rw [← hlen]
  refine Export.performsFrom_exportProgram (fun v s hs => ?_) (fun o ho a ha => ?_)
    (fun o ho a ha => ?_) hexport
  · rw [Export.withoutGroups, (Export.withOperations_values _ _ v).2] at hs
    exact hvalid v s hs
  · obtain ⟨o', ho', hoperands, -⟩ := hold o ho
    exact hlen ▸ Nat.lt_of_lt_of_le (hp.operands_lt ho' a (hoperands ▸ ha)) hextends.values
  · obtain ⟨o', ho', -, hresults⟩ := hold o ho
    exact hlen ▸ Nat.lt_of_lt_of_le (hp.results_lt o' ho' a (hresults ▸ ha)) hextends.values

/-- The operand of the negation is permuted. -/
theorem performs_of_run_negation : ∃ exported report,
    (ofOptions .default).run negation = .ok (exported, report) ∧
    ∃ o ∈ exported.operations, exported.Performs o := by
  have h : (do
      let (exported, _) ← (ofOptions .default).run negation
      let imported ← (ofOptions .default).importStage negation
      return exported.operations.any (creates imported.values.length)) = Except.ok true :=
    eq_ok_of_toOption (by decide +kernel)
  obtain ⟨⟨exported, report⟩, hrun, h⟩ := bind_eq_ok_iff.1 h
  obtain ⟨imported, himport, h⟩ := bind_eq_ok_iff.1 h
  obtain ⟨o, ho, hc⟩ := List.any_eq_true.1 (Except.ok.inj h)
  have hp : negation.WellFormed := ⟨by decide, by decide, by decide, trivial⟩
  obtain ⟨imported', himport', hall⟩ := performs_of_run _ _ _ _ hp hrun
  cases himport.symm.trans himport'
  exact ⟨exported, report, hrun, o, ho, hall o ho hc⟩

section slicing

/-- Two axes, of which the second one has size 1. -/
def column : Mesh := .grid 2 1 Nat.two_pos Nat.one_pos

def slicingOperand : TensorSharding := .ofDims "mesh" [.ofAxes [] true]

def slicingResult : TensorSharding := .ofDims "mesh" [.ofAxes [.full "x", .full "y"] true]

/-- A negation that expects its operand to be cut along both axes. -/
def slicing : Program where
  meshes := [("mesh", column)]
  values := [⟨[8], some slicingOperand, none⟩, ⟨[8], some slicingResult, some 0⟩]
  operations := [⟨"negate", [0], [1], [], some (Rule.identity [8] 1 1)⟩]
  arguments := [0]
  outputs := [1]
  groups := []

/-- The collective in front of it leads to the axis of size 2 only, but its result has both. -/
theorem not_hasSameLayout_slicing :
    slicing.WellFormed ∧ ∃ exported report u,
      (ofOptions .default).run slicing = .ok (exported, report) ∧
      Export.collectiveOperation (.allSlice [[.full "x"]]) 0 2 ∈ exported.operations ∧
      exported.sharding? 0 = some slicingOperand ∧ exported.sharding? 2 = some slicingResult ∧
      Collective.apply (.allSlice [[.full "x"]]) slicingOperand column = .ok u ∧
      u.hasSameLayout slicingResult column = false := by
  have h : (do
      let (exported, _) ← (ofOptions .default).run slicing
      return (exported.operations.head?, exported.sharding? 0, exported.sharding? 2))
      = Except.ok (some (Export.collectiveOperation (.allSlice [[.full "x"]]) 0 2),
          some slicingOperand, some slicingResult) :=
    eq_ok_of_toOption (by decide +kernel)
  obtain ⟨⟨exported, report⟩, hrun, h⟩ := bind_eq_ok_iff.1 h
  obtain ⟨hhead, hoperand, hresult⟩ := by simpa only [Prod.mk.injEq] using Except.ok.inj h
  exact ⟨⟨by decide, by decide, by decide, trivial⟩, exported, report,
    .ofDims "mesh" [.ofAxes [.full "x"] true], hrun, List.mem_of_mem_head? hhead, hoperand,
    hresult, eq_ok_of_toOption (by decide +kernel), by decide +kernel⟩

end slicing

end Pipeline
end MeshSharding
