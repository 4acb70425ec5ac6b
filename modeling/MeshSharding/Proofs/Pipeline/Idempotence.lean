import MeshSharding.Proofs.Pipeline.Exportable

/-! Idempotence of the pipeline. The second run propagates and exports what the first one has
exported, with its rules back, and changes nothing. -/
namespace MeshSharding

open Program

namespace Export

theorem table_withOperations (p : Program) (operations : List Operation) :
    (p.withOperations operations).table = p.table := by
  refine List.ext_getElem? fun i => ?_
  rw [getElem?_table, getElem?_table, withOperations, List.getElem?_mapIdx, Option.map_map]
  rfl

theorem shapeOf_store (p : Program) (t : ShardingTable) (v : Nat) :
    (Admission.store p t).shapeOf v = p.shapeOf v := by
  rw [shapeOf, shapeOf, Admission.store, List.getElem?_mapIdx, Option.map_map]
  cases p.values[v]? with
  | none => rfl
  | some x =>
    simp only [Option.map_some, Function.comp_apply, Option.getD_some]
    split <;> rfl

end Export

namespace Pipeline

open Export

variable {l : Pipeline} {p imported propagated : Program} {provenance : Provenance}

/-- Propagation hands on a program that export can deal with. -/
theorem exportable_withoutGroups (himport : Import.Imports l.catalogue p imported)
    (hpropagate : l.propagateStage imported = .ok (propagated, provenance)) :
    Exportable ⟨withoutGroups propagated, l.options, l.policy⟩
      (Propagator.lastDirection l.options l.heuristics) := by
  have hconsistent := himport.consistent
  obtain ⟨heq, hsound, hunranked, hsettled⟩ := Admission.settled_of_propagate
    (g := ⟨imported, l.options, l.policy⟩) hconsistent.linked hconsistent.rules hconsistent.values
    hpropagate
  generalize ht : propagated.table = t at *
  subst heq
  have hshapes : ∀ v, (withoutGroups (Admission.store imported t)).shapeOf v
      = imported.shapeOf v := fun v =>
    (shapeOf_withOperations ..).trans (shapeOf_store ..)
  have hlength : (withoutGroups (Admission.store imported t)).values.length
      = imported.values.length := by simp
  have hmem : ∀ o ∈ (withoutGroups (Admission.store imported t)).operations,
      o ∈ imported.operations := fun o ho => (List.mem_filter.1 ho).1
  have htable : (withoutGroups (Admission.store imported t)).table = t :=
    (table_withOperations ..).trans ht
  refine
    { fits := fits_withOperations (fits_iff.2
        ⟨Admission.checkValue_store hconsistent.values hsound, fun v s hs => ?_⟩) _
      operands_lt := fun o ho v hv => hlength ▸ hconsistent.operands_lt o (hmem o ho) v hv
      results_lt := fun o ho v hv => hlength ▸ hconsistent.linked.results_lt (hmem o ho) v hv
      rules := fun o ho r hr => ?_
      produced := withOperations_withOperations ..
      groups := himport.groups
      names := fun o ho => by simpa using (List.mem_filter.1 ho).2
      settled := fun o ho => ?_ }
  · refine hunranked v s ?_
    rwa [← ht, get_table]
  · rw [← hconsistent.rules o (hmem o ho) r hr]
    exact congrArg r.verify (signatureOf_congr (fun v _ => hshapes v) fun v _ => hshapes v)
  · rw [htable]
    exact hsettled o (hmem o ho)

/-- Rules that export drops are the ones of the catalogue. Collectives get none again, so theirs do
not matter. -/
def RulesReturn (l : Pipeline) (p : Program) : Prop :=
  ∀ o ∈ p.operations, ∀ r, o.rule = some r → Collective.isOperation o.name = true ∨
    l.options.keepRules = true ∨ r.custom = true ∨
    l.catalogue.ruleFor o.name o.attributes (p.signatureOf o) = .ok r

theorem ruleReturns_of_imports (himport : Import.Imports l.catalogue p imported)
    (hlinked : p.Linked) (hoperands : ∀ o ∈ p.operations, ∀ v ∈ o.operands, v < p.values.length)
    (hrules : l.RulesReturn p) {o : Operation} (ho : o ∈ imported.operations)
    (hname : o.name ≠ Catalogue.groupOperation) :
    RuleReturns l.options l.catalogue imported o := by
  obtain ⟨o₀, ho₀, hruled⟩ := (himport.operations o ho).resolve_left hname
  rcases Import.ruled_eq_ok hruled with ⟨hcollective, rfl⟩ | ⟨-, r, rfl, hverify, hr⟩
  · exact .inl hcollective
  · have hsignature : imported.signatureOf { o₀ with rule := some r } = p.signatureOf o₀ :=
      signatureOf_of_shapes himport.shapes (hoperands o₀ ho₀) fun v hv =>
        hlinked.results_lt ho₀ v hv
    rw [RuleReturns, hsignature]
    rcases hr with hr | hr
    · rcases hrules o₀ ho₀ r hr with hcollective | hreturns
      · exact .inl hcollective
      · exact .inr ⟨r, rfl, hverify, hreturns⟩
    · exact .inr ⟨r, rfl, hverify, .inr (.inr hr)⟩

theorem run_eq_ok_of_stages {q : Program} {reshards : List InsertedReshard}
    (hdirectory : l.checkDirectory = .ok ()) (himport : l.importStage p = .ok imported)
    (hpropagate : l.propagateStage imported = .ok (propagated, provenance))
    (hexport : l.exportStage propagated = .ok (q, reshards)) :
    l.run p = .ok (q, ⟨reshards, provenance⟩) := by
  rw [run, hdirectory]
  simp only [bind, Except.bind, trace, himport, hpropagate, hexport]

/-- A second run of the pipeline on the program that it has exported reports no reshards and exports
the program as it is, if rules come back, passes agree, and what has been made explicit is expected
again. -/
theorem run_exported (l : Pipeline) (p exported : Program) (report : Report) (hp : p.WellFormed)
    (hlinked : p.Linked) (hverify : p.RulesVerify) (hrules : l.RulesReturn p)
    (hpasses : ∀ imported, l.importStage p = .ok imported → ∀ o ∈ imported.operations,
      Propagator.PassesAgree l.options l.heuristics o)
    (hrepeat : ∀ imported propagated provenance, l.importStage p = .ok imported →
      l.propagateStage imported = .ok (propagated, provenance) →
      Repeatable l.options (withoutGroups propagated))
    (hrun : l.run p = .ok (exported, report)) (hn : exported.operations.length ≤ wordBound) :
    ∃ provenance, l.run exported = .ok (exported, ⟨[], provenance⟩) := by
  obtain ⟨imported, propagated, himport, hpropagate, hexport⟩ := stages_of_run hrun
  have hoperands : ∀ o ∈ p.operations, ∀ v ∈ o.operands, v < p.values.length :=
    fun o ho => hp.operands_lt ho
  have himports := Import.imports_importProgram hlinked hoperands
    (fun o ho _ r hr => hverify o ho r hr) himport
  have hfirst := exportable_withoutGroups himports hpropagate
  have hrepeat := hrepeat _ _ _ himport hpropagate
  obtain ⟨s, hinsert, rfl⟩ := exportProgram_eq_ok hexport
  have hq := hfirst.inserts hrepeat hinsert
  obtain ⟨hmem, hshapes⟩ : (∀ o ∈ (withoutGroups propagated).operations, o ∈ imported.operations) ∧
      ∀ v, (withoutGroups propagated).shapeOf v = imported.shapeOf v := by
    obtain ⟨t, rfl⟩ := Admission.propagate_eq hpropagate
    exact ⟨fun o ho => (List.mem_filter.1 ho).1,
      fun v => (shapeOf_withOperations ..).trans (shapeOf_store ..)⟩
  have hreturns : ∀ o ∈ (withoutGroups propagated).operations,
      RuleReturns l.options l.catalogue (withoutGroups propagated) o := fun o ho =>
    (ruleReturns_of_imports himports hlinked hoperands hrules (hmem o ho)
      (hfirst.names o ho)).congr rfl rfl rfl
      (signatureOf_congr (fun v _ => hshapes v) fun v _ => hshapes v)
  have himport' : l.importStage (finish l.options s) = .ok (restore l.options s) :=
    importProgram_finish (hq.fits hfirst.fits) (hq.groups hfirst.groups)
      (hfirst.ruleReturns_of_reshards hq hreturns)
  obtain ⟨provenance, hpropagate'⟩ := hfirst.propagate_restore (q := s) hq hrepeat
    (fun o ho => hpasses imported himport o (hmem o ho)) (by
      rwa [finish, closeValues_operations, List.length_map] at hn)
  refine ⟨provenance, run_eq_ok_of_stages ?_ himport' hpropagate' ?_⟩
  · obtain ⟨_, hdirectory, -⟩ := bind_eq_ok_iff.1 hrun
    exact hdirectory
  · have hexport' := exportProgram_eq_finish (hfirst.insertReshards_restore hq hrepeat hinsert)
    rwa [finish_restore] at hexport'

/-- An operation with a custom rule, over an operand and a result cut along different axes. -/
def crossing : Program where
  meshes := [("mesh", .grid 2 2 Nat.two_pos Nat.two_pos)]
  values := [⟨[8], some (.ofDims "mesh" [.ofAxes [.full "x"] false]), none⟩,
    ⟨[8], some (.ofDims "mesh" [.ofAxes [.full "y"] false]), some 0⟩]
  operations := [⟨"negate", [0], [1], [], some (Rule.identity [8] 1 1).asCustom⟩]
  arguments := [0]
  outputs := [1]
  groups := []

/-- The operand is permuted in the first run, and rests in the second one. -/
theorem run_exported_crossing : ∃ exported report,
    (ofOptions .default).run crossing = .ok (exported, report) ∧ report.reshards.length = 1 ∧
    ∃ provenance, (ofOptions .default).run exported = .ok (exported, ⟨[], provenance⟩) := by
  have h : (do
      let imported ← (ofOptions .default).importStage crossing
      let (propagated, _) ← (ofOptions .default).propagateStage imported
      let (exported, report) ← (ofOptions .default).run crossing
      return (imported, withoutGroups propagated, report.reshards.length,
        exported.operations.length)) = Except.ok (crossing, crossing, 1, 2) :=
    eq_ok_of_toOption (by decide +kernel)
  obtain ⟨imported, himport, h⟩ := bind_eq_ok_iff.1 h
  obtain ⟨⟨propagated, provenance⟩, hpropagate, h⟩ := bind_eq_ok_iff.1 h
  obtain ⟨⟨exported, report⟩, hrun, h⟩ := bind_eq_ok_iff.1 h
  obtain ⟨rfl, hpropagated, hreshards, hlength⟩ : imported = crossing ∧
      withoutGroups propagated = crossing ∧ report.reshards.length = 1 ∧
      exported.operations.length = 2 := by simpa using Except.ok.inj h
  have hlinked : crossing.Linked := by
    refine ⟨fun i o hi v hv => ?_, by decide⟩
    rcases i with _ | i
    · cases hi
      cases List.mem_singleton.1 hv
      rfl
    · cases hi
  have hrule : ∀ o ∈ crossing.operations, ∀ r, o.rule = some r →
      r.custom = true ∧ r.verify (crossing.signatureOf o) = .ok () := by
    intro o ho r hr
    cases List.mem_singleton.1 ho
    cases hr
    exact ⟨rfl, eq_ok_of_toOption (by decide +kernel)⟩
  refine ⟨exported, report, hrun, hreshards, run_exported _ crossing exported report
    ⟨by decide, by decide, by decide, trivial⟩ hlinked (fun o ho r hr => (hrule o ho r hr).2)
    (fun o ho r hr => .inr (.inr (.inl (hrule o ho r hr).1))) (fun imported himport' o ho => ?_)
    (fun imported propagated' provenance' himport' hpropagate' => ?_) hrun
    (by rw [hlength]; decide)⟩
  · cases himport.symm.trans himport'
    exact Propagator.passesAgree_standard rfl (by revert o; decide)
  · cases himport.symm.trans himport'
    cases hpropagate.symm.trans hpropagate'
    rw [hpropagated]
    exact repeatable_of_sharded rfl rfl (by decide) (by decide)

/-- Without the collective that the first run does not insert, the second one fails. -/
theorem not_run_exported_crossing :
    let l := ofOptions { Options.default with insertsCollectives := false }
    ∃ exported report, l.run crossing = .ok (exported, report) ∧
      ∃ e, l.run exported = .error e := by
  intro l
  have h : (do
      let (exported, _) ← l.run crossing
      return (l.run exported).toOption.isNone) = Except.ok true :=
    eq_ok_of_toOption (by decide +kernel)
  obtain ⟨⟨exported, report⟩, hrun, h⟩ := bind_eq_ok_iff.1 h
  refine ⟨exported, report, hrun, ?_⟩
  cases hsecond : l.run exported with
  | error e => exact ⟨e, rfl⟩
  | ok x =>
    have hnone : (l.run exported).toOption.isNone = true := Except.ok.inj h
    rw [hsecond] at hnone
    cases hnone

end Pipeline
end MeshSharding
