import MeshSharding.Pipeline
import MeshSharding.Proofs.Pipeline.Export
import MeshSharding.Proofs.Pipeline.Import

/-! Preservation of programs. Import and propagation keep the operations, and export keeps
them up to operations that copy values and that erasure takes away again. -/
namespace MeshSharding

open Program

/-- The program `q` is `p` without groups, up to operations that copy values. -/
structure Preserves (p q : Program) (reshards : List InsertedReshard) : Prop where
  operations : (erased p.values.length q.operations).map Operation.withoutRule = p.flow
  arguments : q.arguments = p.arguments
  outputs : q.outputs = p.outputs
  shapes : ∀ v < p.values.length, q.values[v]?.map (·.shape) = p.values[v]?.map (·.shape)
  shardings : ∀ v < p.values.length,
    (q.sharding? v).map TensorSharding.closedLike = (p.sharding? v).map TensorSharding.closedLike
  ordered : UsesEarlier q.arguments q.operations
  inserted : ∀ o ∈ q.operations, creates p.values.length o = true →
    ∃ c a b, o = Export.collectiveOperation c a b
  reshards : ∀ r ∈ reshards, ∃ o v, q.operations[r.operation]? = some o ∧
    creates p.values.length o = false ∧ o.operands[r.operand]? = some v ∧
    rootOf p.values.length q.operations v = r.source

namespace Admission

@[simp] theorem length_store (p : Program) (t : ShardingTable) :
    (store p t).values.length = p.values.length := by simp [store]

theorem propagate_eq {g : Propagator} {heuristics : List Heuristic} {q : Program}
    {provenance : Provenance} (h : propagate g heuristics = .ok (q, provenance)) :
    ∃ t, q = store g.program t := by
  obtain ⟨⟨t, _⟩, _, h⟩ := bind_eq_ok_iff.1 h
  cases h
  exact ⟨t, rfl⟩

end Admission

namespace Export

variable {p q : Program} {options : Options} {reshards : List InsertedReshard}

theorem withOperations_values (p : Program) (operations : List Operation) (v : Nat) :
    (p.withOperations operations).values[v]?.map (·.shape) = p.values[v]?.map (·.shape) ∧
      (p.withOperations operations).sharding? v = p.sharding? v := by
  simp only [withOperations, sharding?, List.getElem?_mapIdx]
  cases p.values[v]? <;> simp

@[simp] theorem length_withoutGroups (p : Program) :
    (withoutGroups p).values.length = p.values.length := by
  simp [withoutGroups, withOperations]

theorem flow_eq_withoutGroups (p : Program) :
    (withoutGroups p).operations.map Operation.withoutRule = p.flow := rfl

/-- Insertions keep the program. -/
theorem preserves_splice {extra : List Value} {all : List Insertion} {bound : Nat}
    {root : Nat → Nat} (hw : (withoutGroups p).WellFormed)
    (hroot : ∀ v < p.values.length, root v = v)
    (hall : ∀ i ∈ all, Sound p.values.length bound root (withoutGroups p).operations i) :
    let spliced := splice all 0 0 (withoutGroups p).operations
    Preserves p ({ withoutGroups p with
      values := (withoutGroups p).values ++ extra }.withOperations spliced.1) spliced.2 := by
  intro spliced
  have hlen := length_withoutGroups p
  rw [← hlen] at hroot hall
  obtain ⟨hrootOf, herased⟩ := erased_splice hw hroot hall
  have hvalue : ∀ v < p.values.length, ((withoutGroups p).values ++ extra)[v]?
      = (withoutGroups p).values[v]? := fun v hv =>
    List.getElem?_append_left (hlen ▸ hv)
  have hfix : ∀ o ∈ (withoutGroups p).operations, ∀ v ∈ o.operands, root v = v :=
    fun o ho v hv => hroot v (hw.operands_lt ho v hv)
  refine ⟨?_, rfl, rfl, fun v hv => ?_, fun v hv => ?_, ?_, ?_, ?_⟩
  · rw [← flow_eq_withoutGroups, ← hlen]
    exact congrArg (List.map Operation.withoutRule) herased
  · rw [(withOperations_values _ _ v).1, hvalue v hv]
    exact (withOperations_values p _ v).1
  · rw [(withOperations_values _ _ v).2, sharding?, hvalue v hv]
    exact congrArg _ (withOperations_values p _ v).2
  · exact usesEarlier_splice hall rfl hw.ordered (List.Subset.refl _)
  · rw [← hlen]
    intro o ho hc
    obtain ⟨c, a, b, heq, _⟩ := copies_splice hall hw.results_lt 0 0 o ho hc
    exact ⟨c, a, b, heq⟩
  · rw [← hlen]
    intro r hr
    obtain ⟨_, o, v, hget, hc, hv, hsame⟩ :=
      reshards_splice (k := 0) hall rfl hw.results_lt hfix r hr
    refine ⟨o, v, hget, hc, hv, ?_⟩
    rw [← hsame]
    exact hrootOf o (List.mem_of_getElem? hget) v (List.mem_of_getElem? hv)

theorem preserves_insertReshards (hw : (withoutGroups p).WellFormed)
    (h : insertReshards options (withoutGroups p) = .ok (q, reshards)) :
    Preserves p q reshards := by
  rw [insertReshards] at h
  obtain ⟨mismatches, _, h⟩ := bind_eq_ok_iff.1 h
  have hlen := length_withoutGroups p
  split at h
  · cases h
    have hsame : (withoutGroups p).withOperations (withoutGroups p).operations
        = withoutGroups p := by
      simp [withoutGroups, withOperations, Function.comp_def]
    have hnone : ∀ i ∈ [], Sound p.values.length 0 id (withoutGroups p).operations i := nofun
    have hpreserves : Preserves p ({ withoutGroups p with
        values := (withoutGroups p).values ++ [] }.withOperations
          (splice [] 0 0 (withoutGroups p).operations).1)
        (splice [] 0 0 (withoutGroups p).operations).2 :=
      preserves_splice hw (fun _ _ => rfl) hnone
    simpa only [splice_nil, List.append_nil, hsame] using hpreserves
  · obtain ⟨⟨p', all⟩, hinsert, h⟩ := bind_eq_ok_iff.1 h
    cases h
    obtain ⟨root, extra, rfl, hroot, hall⟩ := insertions_spec hinsert (Nat.le_of_eq hlen.symm)
      (fun o ho a ha => hlen ▸ hw.operands_lt ho a ha) id
    exact preserves_splice hw (fun v hv => hroot v (hlen.symm ▸ hv)) hall

/-- Dropping rules keeps the program. -/
theorem preserves_dropRules (h : Preserves p q reshards) :
    Preserves p (dropRules q) reshards := by
  have hsame : (dropRules q).operations.map Operation.withoutRule
      = q.operations.map Operation.withoutRule := by
    rw [dropRules, List.map_map]
    rfl
  have hroot : rootOf p.values.length (dropRules q).operations
      = rootOf p.values.length q.operations := by
    rw [← rootOf_map_withoutRule, hsame, rootOf_map_withoutRule]
  refine ⟨?_, h.arguments, h.outputs, h.shapes, h.shardings, ?_, fun o ho hc => ?_,
    fun r hr => ?_⟩
  · rw [← erased_map_withoutRule, hsame, erased_map_withoutRule]
    exact h.operations
  · rw [← usesEarlier_map_withoutRule, hsame, usesEarlier_map_withoutRule]
    exact h.ordered
  · obtain ⟨o', ho', rfl⟩ := List.mem_map.1 ho
    obtain ⟨c, a, b, rfl⟩ := h.inserted o' ho' hc
    exact ⟨c, a, b, rfl⟩
  · obtain ⟨o, v, hget, hc, hv, hsource⟩ := h.reshards r hr
    refine ⟨{ o with rule := o.rule.filter (·.custom) }, v, ?_, hc, hv, hroot ▸ hsource⟩
    simp [dropRules, hget]

/-- Closing shardings keeps their axes. -/
theorem preserves_closeShardings (h : Preserves p q reshards) :
    Preserves p (closeShardings q) reshards := by
  refine ⟨h.operations, h.arguments, h.outputs, fun v hv => ?_, fun v hv => ?_, h.ordered,
    h.inserted, h.reshards⟩
  · rw [← h.shapes v hv]
    simp [closeShardings, Function.comp_def]
  · have hclosed : ∀ s : TensorSharding, s.closedLike.closedLike = s.closedLike := fun s => by
      simp [TensorSharding.closedLike, TensorSharding.mapDims]
    rw [← h.shardings v hv]
    simp only [sharding?, closeShardings, List.getElem?_map]
    cases q.values[v]? with
    | none => rfl
    | some x => cases hx : x.sharding <;> simp [hx, hclosed]

theorem preserves_exportProgram (hw : (withoutGroups p).WellFormed)
    (h : exportProgram options p = .ok (q, reshards)) : Preserves p q reshards :=
  exportProgram_keeps (motive := fun q => Preserves p q reshards) h
    (fun _ => preserves_insertReshards hw) (fun _ => preserves_dropRules)
    fun _ => preserves_closeShardings

end Export

namespace Pipeline

theorem stages_of_run {l : Pipeline} {p exported : Program} {report : Report}
    (h : l.run p = .ok (exported, report)) :
    ∃ imported propagated, l.importStage p = .ok imported ∧
      l.propagateStage imported = .ok (propagated, report.provenance) ∧
      l.exportStage propagated = .ok (exported, report.reshards) := by
  obtain ⟨_, -, h⟩ := bind_eq_ok_iff.1 h
  unfold trace at h
  dsimp only at h
  split at h
  · cases h
  · rename_i imported himport
    split at h
    · cases h
    · rename_i propagated provenance hpropagate
      split at h
      · cases h
      · rename_i hexport
        cases h
        exact ⟨imported, propagated, himport, hpropagate, hexport⟩

/-- Every operation but those of groups was in the program before import. -/
theorem exists_operation_of_withoutGroups {p imported : Program}
    (h : Import.Extends p imported) (t : ShardingTable) :
    ∀ o ∈ (Export.withoutGroups (Admission.store imported t)).operations,
      ∃ o' ∈ p.operations, o'.operands = o.operands ∧ o'.results = o.results := by
  intro o ho
  have hflow : o.withoutRule ∈ imported.flow := List.mem_map_of_mem ho
  rw [h.flow] at hflow
  obtain ⟨o', ho', heq⟩ := List.mem_map.1 hflow
  have hoperands : o'.withoutRule.operands = o.withoutRule.operands := congrArg _ heq
  have hresults : o'.withoutRule.results = o.withoutRule.results := congrArg _ heq
  exact ⟨o', (List.mem_filter.1 ho').1, hoperands, hresults⟩

theorem wellFormed_withoutGroups {p imported : Program} (hp : p.WellFormed)
    (hnames : ∀ o ∈ p.operations, o.name ≠ Catalogue.groupOperation)
    (h : Import.Extends p imported) (t : ShardingTable) :
    (Export.withoutGroups (Admission.store imported t)).WellFormed := by
  have hlen : (Export.withoutGroups (Admission.store imported t)).values.length
      = imported.values.length := by simp
  have hflow : (Export.withoutGroups (Admission.store imported t)).operations.map
      Operation.withoutRule = p.operations.map Operation.withoutRule := by
    change imported.flow = _
    rw [h.flow, flow, List.filter_eq_self.2]
    simpa using hnames
  have hgrown : ({ p with values := imported.values } : Program).WellFormed :=
    ⟨fun a ha => Nat.lt_of_lt_of_le (hp.arguments_lt a ha) h.values,
      fun o ho a ha => Nat.lt_of_lt_of_le (hp.results_lt o ho a ha) h.values, hp.ordered⟩
  exact hgrown.congr h.arguments hlen hflow

/-- Behind import and propagation, export preserves the program: erasing what it inserted
gives the propagated operations, without those of groups. -/
theorem exportStage_preserves (l : Pipeline) (p imported propagated exported : Program)
    (provenance : Provenance) (reshards : List InsertedReshard) (hp : p.WellFormed)
    (hnames : ∀ o ∈ p.operations, o.name ≠ Catalogue.groupOperation)
    (himport : l.importStage p = .ok imported)
    (hpropagate : l.propagateStage imported = .ok (propagated, provenance))
    (hexport : l.exportStage propagated = .ok (exported, reshards)) :
    Preserves propagated exported reshards := by
  have hextends := Import.extends_importProgram himport
  obtain ⟨t, rfl⟩ := Admission.propagate_eq hpropagate
  exact Export.preserves_exportProgram (wellFormed_withoutGroups hp hnames hextends t) hexport

/-- An operation with its own rule, over an operand and a result cut along different axes. -/
def negation : Program where
  meshes := [("mesh", .grid 2 2 Nat.two_pos Nat.two_pos)]
  values := [⟨[6], some (.ofDims "mesh" [.ofAxes [.full "x"] true]), none⟩,
    ⟨[6], some (.ofDims "mesh" [.ofAxes [.full "y"] true]), some 0⟩]
  operations := [⟨"negate", [0], [1], [], some (Rule.identity [6] 1 1)⟩]
  arguments := [0]
  outputs := [1]
  groups := []

theorem exportStage_preserves_negation :
    ∃ imported propagated exported provenance reshards,
      (ofOptions .default).importStage negation = .ok imported ∧
      (ofOptions .default).propagateStage imported = .ok (propagated, provenance) ∧
      (ofOptions .default).exportStage propagated = .ok (exported, reshards) ∧
      reshards.length = 1 ∧ Preserves propagated exported reshards := by
  have h : (do
      let imported ← (ofOptions .default).importStage negation
      let propagated ← (ofOptions .default).propagateStage imported
      let exported ← (ofOptions .default).exportStage propagated.1
      return exported.2.length) = Except.ok 1 :=
    eq_ok_of_toOption (by decide +kernel)
  obtain ⟨imported, himport, h⟩ := bind_eq_ok_iff.1 h
  obtain ⟨⟨propagated, provenance⟩, hpropagate, h⟩ := bind_eq_ok_iff.1 h
  obtain ⟨⟨exported, reshards⟩, hexport, h⟩ := bind_eq_ok_iff.1 h
  have hp : negation.WellFormed := ⟨by decide, by decide, by decide, trivial⟩
  exact ⟨_, _, _, _, _, himport, hpropagate, hexport, Except.ok.inj h,
    exportStage_preserves _ _ _ _ _ _ _ hp (by decide) himport hpropagate hexport⟩

end Pipeline

end MeshSharding
