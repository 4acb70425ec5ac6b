import MeshSharding.Proofs.Pipeline.Idempotence

/-! Success of export. Whatever is expected of operands can be computed, and an operand can be
resharded to it if no references of the operand to an opaque axis could be merged. Where they could,
a collective over the merged references is refused. -/
namespace MeshSharding

open AxisList Program

namespace Export

variable {p q : Program} {options : Options} {m : Mesh} {s expected : TensorSharding}
  {mismatches : List Mismatch} {x : Mismatch}

/-- Where collectives can be applied one after the other, a chain makes them explicit. -/
theorem exists_chain {cs : List Collective} {t : TensorSharding}
    (h : Collective.applyAll cs s m = .ok t) (shape : Shape) (expected : TensorSharding)
    (p : Program) (value : Nat) :
    ∃ q operations last, chain m shape expected p value s cs = .ok (q, operations, last) := by
  induction cs generalizing p value s t with
  | nil => exact ⟨p, [], value, rfl⟩
  | cons c rest ih =>
    obtain ⟨applied, happly, hrest⟩ := Collective.applyAll_cons_eq_ok_iff.1 h
    obtain ⟨t', hnext⟩ : ∃ t', Collective.applyAll rest
        (if rest.isEmpty then expected else applied) m = .ok t' := by
      cases rest with
      | nil => exact ⟨expected, rfl⟩
      | cons c' rest => exact ⟨t, hrest⟩
    obtain ⟨q, operations, last, hchain⟩ := ih (t := t') hnext
      (p.pushValue ⟨shape, some (if rest.isEmpty then expected else applied), none⟩).1
      p.values.length
    refine ⟨q, collectiveOperation c value p.values.length :: operations, last, ?_⟩
    rw [chain, happly]
    simp only [bind, Except.bind, pushValue] at hchain ⊢
    rw [hchain]
    rfl

/-- There are collectives from the operand of the mismatch to what is expected. -/
def Reshardable (p : Program) (x : Mismatch) : Prop :=
  ∃ o source s m cs t, p.operations[x.operation]? = some o ∧ o.operands[x.operand]? = some source ∧
    p.sharding? source = some s ∧ p.mesh x.expected.meshName = .ok m ∧
    Resharding.reshard s x.expected m = .ok cs ∧ Collective.applyAll cs s m = .ok t

theorem Reshardable.append (h : Reshardable p x) (extra : List Value) :
    Reshardable { p with values := p.values ++ extra } x := by
  obtain ⟨o, source, s, m, cs, t, ho, hsource, hs, hm, hcs, happly⟩ := h
  exact ⟨o, source, s, m, cs, t, ho, hsource, sharding?_append hs extra, hm, hcs, happly⟩

theorem exists_insertions (h : ∀ x ∈ mismatches, Reshardable p x) :
    ∃ q all, insertions p mismatches = .ok (q, all) := by
  induction mismatches generalizing p with
  | nil => exact ⟨p, [], rfl⟩
  | cons x rest ih =>
    rw [List.forall_mem_cons] at h
    obtain ⟨⟨o, source, s, m, cs, t, ho, hsource, hs, hm, hcs, happly⟩, hrest⟩ := h
    have hlt := lt_of_sharding? hs
    obtain ⟨v, hv, hsharding⟩ := Option.bind_eq_some_iff.1 hs
    rw [insertions, operation_eq_ok_iff.2 ho]
    simp only [bind, Except.bind, valueAt_operand_eq_ok_iff.2 hsource, value_eq_ok_iff.2 hv,
      hsharding, hm, hcs]
    split
    · exact ih hrest
    · obtain ⟨q, operations, last, hchain⟩ :=
        exists_chain happly v.shape x.expected p source
      obtain ⟨_, extra, rfl, -⟩ := chain_spec hchain hlt (Nat.zero_le _) id
      obtain ⟨q', all, hall⟩ := ih fun y hy => (hrest y hy).append extra
      exact ⟨q', _, by simp only [hchain, hall]; rfl⟩

/-- Operands of which something else is expected have no neighbours on an opaque axis that could be
merged. -/
def SeamlessOperands (p : Program) : Prop :=
  ∀ o r operand value expected reference, Expects p o r operand value expected reference →
    ∀ s m, p.sharding? value = some s → p.mesh s.meshName = .ok m → s.Seamless m

theorem reshardable_of_arises (hvalues : ∀ v ∈ p.values, Import.checkValue p v = .ok ())
    (hrules : p.RulesVerify) (hseam : SeamlessOperands p) (hx : Arises p x) : Reshardable p x := by
  obtain ⟨o, r, value, reference, ho, hr, hvalue, hexpectation⟩ := hx
  have hmem := List.mem_of_getElem? ho
  obtain ⟨c, dims, hdims, hexpected, hvalidate⟩ := exists_comparison hexpectation
  have hsource := (c.checked (Import.forM_eq_ok hvalues) (hrules o hmem r hr) hvalue).source
  have htarget := (TensorSharding.validate_eq_ok_iff.1 hvalidate).2
  have hseamless := hseam o r x.operand value x.expected reference
    ⟨hmem, hr, hvalue, hexpectation⟩ c.source c.mesh c.source_eq c.mesh_eq
  have hname : c.source.meshName = x.expected.meshName := by rw [hexpected]
  have hrank : c.source.rank = x.expected.rank := by
    rw [hexpected]
    exact (Comparison.length_expectedDims hdims).symm
  obtain ⟨cs, A, t, B, hreshard, -, hrun, -⟩ :=
    Resharding.run_reshard_of_seamless hsource htarget hseamless hname hrank (by rw [hexpected])
  exact ⟨o, value, c.source, c.mesh, cs, t, ho, hvalue, c.source_eq, hname ▸ c.mesh_eq, hreshard,
    hrun.applyAll⟩

/-- Export succeeds where every operand of which something else is expected is seamless. -/
theorem exists_exportProgram {g : Propagator} {d : Operation → Direction} (h : Exportable g d)
    (hinserts : options.insertsCollectives = true) (hseam : SeamlessOperands g.program)
    {p : Program} (hp : withoutGroups p = g.program) :
    ∃ exported reshards, exportProgram options p = .ok (exported, reshards) := by
  obtain ⟨mismatches, hmismatches⟩ : ∃ mismatches,
      mismatchesFrom options g.program 0 g.program.operations = .ok mismatches := by
    refine exists_mismatchesFrom 0 fun i o r ho hr => exists_operandMismatches 0 fun j v hv => ?_
    rw [Nat.zero_add]
    refine .inr ⟨hinserts, ?_⟩
    rcases (h.place (List.mem_of_getElem? ho) hr hv).expectation_spec with
      ⟨hnone, -⟩ | ⟨_, c, dims, -, hsome⟩
    · exact ⟨_, hnone⟩
    · exact ⟨_, hsome⟩
  obtain ⟨q, all, hall⟩ := exists_insertions fun x hx =>
    reshardable_of_arises h.values h.rules hseam (arises_of_mem hmismatches hx)
  obtain ⟨q', reshards, hinsert⟩ : ∃ q' reshards,
      insertReshards options (withoutGroups p) = .ok (q', reshards) := by
    rw [hp, insertReshards, hmismatches]
    simp only [bind, Except.bind]
    split
    · exact ⟨_, _, rfl⟩
    · rw [hall]
      exact ⟨_, _, rfl⟩
  rw [exportProgram, hinsert]
  exact ⟨_, _, rfl⟩

end Export

namespace Pipeline

open Export

/-- With collectives to insert, export succeeds on what propagation hands on, if every operand that
is to be resharded has a sharding without neighbours on an opaque axis that could be merged. -/
theorem exists_exportStage (l : Pipeline) (p imported propagated : Program)
    (provenance : Provenance) (hp : p.WellFormed) (hlinked : p.Linked) (hverify : p.RulesVerify)
    (himport : l.importStage p = .ok imported)
    (hpropagate : l.propagateStage imported = .ok (propagated, provenance))
    (hinserts : l.options.insertsCollectives = true)
    (hseam : SeamlessOperands (withoutGroups propagated)) :
    ∃ exported reshards, l.exportStage propagated = .ok (exported, reshards) := by
  have himports := Import.imports_importProgram hlinked (fun o ho => hp.operands_lt ho)
    (fun o ho _ r hr => hverify o ho r hr) himport
  exact exists_exportProgram (exportable_withoutGroups himports hpropagate) hinserts hseam rfl

/-- The operand of a negation is sharded along parts of an axis, and its result is not. -/
def gathered (axes : List AxisRef) : Program :=
  .single (.grid 24 2 (by decide) Nat.two_pos) [([48], some (.ofDims "mesh" [.ofAxes axes true]))]
    "stablehlo.negate" (Rule.identity [48] 1 1) [48] (some (.ofDims "mesh" [.ofAxes [] true]))

theorem rulesVerify_gathered (axes : List AxisRef) : (gathered axes).RulesVerify :=
  have h : (Rule.identity [48] 1 1).verify ⟨[[48]], [[48]]⟩ = .ok () :=
    eq_ok_of_toOption (by decide +kernel)
  rulesVerify_single _ _ _ h

/-- The windows of the operand end at 1, 4, 6 and 24, where 4 does not divide 6. They are gathered
together. -/
theorem exists_exportStage_gathered :
    ∃ imported propagated provenance exported reshards,
      (ofOptions .default).importStage (gathered [.sub "x" 1 4, .sub "x" 6 4]) = .ok imported ∧
      (ofOptions .default).propagateStage imported = .ok (propagated, provenance) ∧
      (ofOptions .default).exportStage propagated = .ok (exported, reshards) := by
  let p := gathered [.sub "x" 1 4, .sub "x" 6 4]
  have h : (do
      let imported ← (ofOptions .default).importStage p
      let (propagated, _) ← (ofOptions .default).propagateStage imported
      return (propagated.meshes, propagated.values)) = Except.ok (p.meshes, p.values) :=
    eq_ok_of_toOption (by decide +kernel)
  obtain ⟨imported, himport, h⟩ := bind_eq_ok_iff.1 h
  obtain ⟨⟨propagated, provenance⟩, hpropagate, h⟩ := bind_eq_ok_iff.1 h
  obtain ⟨hmeshes, hvalues⟩ : propagated.meshes = p.meshes ∧ propagated.values = p.values := by
    simpa using Except.ok.inj h
  have hseam : SeamlessOperands (withoutGroups propagated) := by
    intro o r operand value expected reference _ s m hs hm
    have hs : (propagated.values[value]?.bind Value.sharding) = some s :=
      (withOperations_values propagated _ value).2.symm.trans hs
    have hm : propagated.mesh s.meshName = .ok m := hm
    rw [hvalues] at hs
    rw [Program.mesh, hmeshes] at hm
    rcases value with _ | _ | value
    · cases hs
      cases hm
      decide
    · cases hs
      cases hm
      decide
    · cases hs
  obtain ⟨exported, reshards, hexport⟩ := exists_exportStage (ofOptions .default) p imported
    propagated provenance (wellFormed_single ..) (linked_single ..) (rulesVerify_gathered _)
    himport hpropagate rfl hseam
  exact ⟨imported, propagated, provenance, exported, reshards, himport, hpropagate, hexport⟩

/-- With the first window in two parts that are not merged, the collective gathers a window that
the operand does not have. -/
theorem not_exists_exportStage_unmerged :
    let p := gathered [.sub "x" 1 2, .sub "x" 2 2, .sub "x" 6 4]
    p.WellFormed ∧ p.Linked ∧ p.RulesVerify ∧
    (ofOptions .default).options.insertsCollectives = true ∧
      ∃ imported propagated provenance,
        (ofOptions .default).importStage p = .ok imported ∧
        (ofOptions .default).propagateStage imported = .ok (propagated, provenance) ∧
        (ofOptions .default).exportStage propagated = .error (.invalidCollective
          (.allGather [[.sub "x" 1 4, .sub "x" 6 4]])
          (.notSuffix [.sub "x" 1 4, .sub "x" 6 4]
            [.sub "x" 1 2, .sub "x" 2 2, .sub "x" 6 4] 0)) := by
  intro p
  refine ⟨wellFormed_single .., linked_single .., rulesVerify_gathered _, rfl, ?_⟩
  have h : (do
      let imported ← (ofOptions .default).importStage p
      let (propagated, _) ← (ofOptions .default).propagateStage imported
      match (ofOptions .default).exportStage propagated with
      | .ok _ => return none
      | .error e => return some e) = Except.ok (some (.invalidCollective
          (.allGather [[.sub "x" 1 4, .sub "x" 6 4]])
          (.notSuffix [.sub "x" 1 4, .sub "x" 6 4]
            [.sub "x" 1 2, .sub "x" 2 2, .sub "x" 6 4] 0))) :=
    eq_ok_of_toOption (by decide +kernel)
  obtain ⟨imported, himport, h⟩ := bind_eq_ok_iff.1 h
  obtain ⟨⟨propagated, provenance⟩, hpropagate, h⟩ := bind_eq_ok_iff.1 h
  refine ⟨imported, propagated, provenance, himport, hpropagate, ?_⟩
  dsimp only at h
  split at h
  · cases h
  · rename_i e he
    cases h
    exact he

end Pipeline
end MeshSharding
