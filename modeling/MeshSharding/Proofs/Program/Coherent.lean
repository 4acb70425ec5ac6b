import MeshSharding.Proofs.Program.InPlace
import MeshSharding.Proofs.Program.Linked

/-! Coherence of values and operations. The values that a program mentions exist, no value is a
result twice, and the producer of a value is the operation that has it as a result. Each call keeps
a program coherent, and so does each replacement of its operations by others over its values. -/
namespace MeshSharding
namespace Program

variable {p q : Program}

theorem getElem?_concat_eq_some_iff {α : Type} {l : List α} {a b : α} {i : Nat} :
    (l ++ [a])[i]? = some b ↔ l[i]? = some b ∨ i = l.length ∧ a = b := by
  rw [List.getElem?_append]
  split
  · rename_i hi
    exact ⟨.inl, fun h => h.resolve_right fun h => Nat.ne_of_lt hi h.1⟩
  · rename_i hi
    rw [List.getElem?_eq_none (Nat.not_lt.1 hi), List.getElem?_singleton]
    split <;> simp <;> omega

/-- Values and operations know each other. -/
structure Coherent (p : Program) : Prop where
  operands_lt : ∀ o ∈ p.operations, ∀ v ∈ o.operands, v < p.values.length
  results_lt : ∀ o ∈ p.operations, ∀ v ∈ o.results, v < p.values.length
  arguments_lt : ∀ v ∈ p.arguments, v < p.values.length
  outputs_lt : ∀ v ∈ p.outputs, v < p.values.length
  groups_lt : ∀ group ∈ p.groups, ∀ v ∈ group, v < p.values.length
  nodup_results : (p.operations.flatMap (·.results)).Nodup
  producer_iff : ∀ v x, p.values[v]? = some x →
    ∀ i, x.producer = some i ↔ ∃ o : Operation, p.operations[i]? = some o ∧ v ∈ o.results

section congr

/-- Rules, meshes, and all of a value but its producer have no part in coherence. -/
theorem Coherent.congr (h : p.Coherent)
    (hvalues : q.values.map (·.producer) = p.values.map (·.producer))
    (hoperations : q.operations.map Operation.withoutRule = p.operations.map Operation.withoutRule)
    (harguments : ∀ v ∈ q.arguments, v < p.values.length)
    (houtputs : ∀ v ∈ q.outputs, v < p.values.length)
    (hgroups : ∀ group ∈ q.groups, ∀ v ∈ group, v < p.values.length) : q.Coherent := by
  have hlength : q.values.length = p.values.length := by
    simpa using congrArg List.length hvalues
  refine ⟨fun o ho v hv => ?_, fun o ho v hv => ?_, ?_, ?_, ?_, ?_, fun v x hx i => ?_⟩
  · obtain ⟨i, hi⟩ := List.getElem?_of_mem ho
    obtain ⟨o', ho', heq, -⟩ := exists_results_of_withoutRule hoperations hi
    exact hlength ▸ h.operands_lt o' (List.mem_of_getElem? ho') v (heq ▸ hv)
  · obtain ⟨i, hi⟩ := List.getElem?_of_mem ho
    obtain ⟨o', ho', -, heq⟩ := exists_results_of_withoutRule hoperations hi
    exact hlength ▸ h.results_lt o' (List.mem_of_getElem? ho') v (heq ▸ hv)
  · rw [hlength]
    exact harguments
  · rw [hlength]
    exact houtputs
  · rw [hlength]
    exact hgroups
  · rw [← flatMap_results_map_withoutRule, hoperations, flatMap_results_map_withoutRule]
    exact h.nodup_results
  · have hproducer : (p.values.map (·.producer))[v]? = some x.producer := by
      rw [← hvalues, List.getElem?_map, hx]
      rfl
    rw [List.getElem?_map] at hproducer
    obtain ⟨x', hx', heq⟩ := Option.map_eq_some_iff.1 hproducer
    rw [← heq, h.producer_iff v x' hx' i]
    constructor
    · rintro ⟨o, ho, hv⟩
      obtain ⟨o', ho', -, hresults⟩ := exists_results_of_withoutRule hoperations.symm ho
      exact ⟨o', ho', hresults ▸ hv⟩
    · rintro ⟨o, ho, hv⟩
      obtain ⟨o', ho', -, hresults⟩ := exists_results_of_withoutRule hoperations ho
      exact ⟨o', ho', hresults ▸ hv⟩

end congr

section calls

theorem coherent_empty : empty.Coherent :=
  ⟨nofun, nofun, nofun, nofun, nofun, List.nodup_nil, nofun⟩

/-- Operations over the values of the program, to which others may have been added. -/
theorem Coherent.replace (h : p.Coherent) {values : List Value} {operations : List Operation}
    (hle : p.values.length ≤ values.length)
    (hoperands : ∀ o ∈ operations, ∀ v ∈ o.operands, v < values.length)
    (hresults : ∀ o ∈ operations, ∀ v ∈ o.results, v < values.length)
    (hnodup : (operations.flatMap (·.results)).Nodup)
    (hproducer : ∀ v x, values[v]? = some x →
      ∀ i, x.producer = some i ↔ ∃ o : Operation, operations[i]? = some o ∧ v ∈ o.results) :
    ({ p with values := values, operations := operations } : Program).Coherent where
  operands_lt := hoperands
  results_lt := hresults
  arguments_lt v hv := Nat.lt_of_lt_of_le (h.arguments_lt v hv) hle
  outputs_lt v hv := Nat.lt_of_lt_of_le (h.outputs_lt v hv) hle
  groups_lt group hgroup v hv := Nat.lt_of_lt_of_le (h.groups_lt group hgroup v hv) hle
  nodup_results := hnodup
  producer_iff := hproducer

/-- The next value is no result. -/
theorem Coherent.not_result (h : p.Coherent) {v : Nat} (hv : p.values.length ≤ v) {i : Nat} :
    ¬ ∃ o : Operation, p.operations[i]? = some o ∧ v ∈ o.results := by
  rintro ⟨o, ho, hresult⟩
  exact Nat.not_lt.2 hv (h.results_lt o (List.mem_of_getElem? ho) v hresult)

theorem Coherent.addArgument (h : p.Coherent) (shape : Shape) (s : Option TensorSharding) :
    (p.addArgument shape s).1.Coherent := by
  have hle : p.values.length ≤ (p.values ++ [(⟨shape, s, none⟩ : Value)]).length := by simp
  have hgrown := h.replace hle (fun o ho v hv => Nat.lt_of_lt_of_le (h.operands_lt o ho v hv) hle)
    (fun o ho v hv => Nat.lt_of_lt_of_le (h.results_lt o ho v hv) hle) h.nodup_results
    fun v x hx i => by
      rcases getElem?_concat_eq_some_iff.1 hx with hx | ⟨rfl, rfl⟩
      · exact h.producer_iff v x hx i
      · exact iff_of_false nofun (h.not_result (Nat.le_refl _))
  refine hgrown.congr rfl rfl (fun v hv => ?_) hgrown.outputs_lt hgrown.groups_lt
  rcases List.mem_append.1 hv with hv | hv
  · exact hgrown.arguments_lt v hv
  · obtain rfl := List.mem_singleton.1 hv
    simp

theorem Coherent.addOperation {name : String} {operands results : List Nat}
    {shapes : List Shape} {attributes : Attributes} (h : p.Coherent)
    (hadd : p.addOperation name operands shapes attributes = .ok (q, results)) :
    q.Coherent := by
  obtain ⟨hoperands, rfl, rfl⟩ := addOperation_eq hadd
  have hlength : (p.values ++ shapes.map fun shape =>
      (⟨shape, none, some p.operations.length⟩ : Value)).length
        = p.values.length + shapes.length := by simp
  refine h.replace (by omega) ?_ ?_ ?_ fun v x hx i => ?_
  · rw [hlength, List.forall_mem_append, List.forall_mem_singleton]
    exact ⟨fun o ho v hv => Nat.lt_add_right _ (h.operands_lt o ho v hv),
      fun v hv => Nat.lt_add_right _ (hoperands v hv)⟩
  · rw [hlength, List.forall_mem_append, List.forall_mem_singleton]
    exact ⟨fun o ho v hv => Nat.lt_add_right _ (h.results_lt o ho v hv),
      fun v hv => (List.mem_range'_1.1 hv).2⟩
  · rw [List.flatMap_append, List.flatMap_singleton]
    refine List.nodup_append.2 ⟨h.nodup_results, List.nodup_range', fun v hv w hw => ?_⟩
    obtain ⟨o, ho, hv⟩ := List.mem_flatMap.1 hv
    exact Nat.ne_of_lt (Nat.lt_of_lt_of_le (h.results_lt o ho v hv) (List.mem_range'_1.1 hw).1)
  · have hvalue : p.values[v]? = some x ∨
        p.values.length ≤ v ∧ v < p.values.length + shapes.length ∧
          x.producer = some p.operations.length := by
      by_cases hv : v < p.values.length
      · rw [List.getElem?_append_left hv] at hx
        exact .inl hx
      · rw [List.getElem?_append_right (Nat.not_lt.1 hv), List.getElem?_map] at hx
        obtain ⟨shape, hshape, rfl⟩ := Option.map_eq_some_iff.1 hx
        have := (List.getElem?_eq_some_iff.1 hshape).1
        exact .inr ⟨Nat.not_lt.1 hv, by omega, rfl⟩
    simp only [getElem?_concat_eq_some_iff, or_and_right, exists_or, and_assoc, exists_and_left,
      exists_eq_left', List.mem_range'_1]
    rcases hvalue with hx | ⟨hle, hlt, hproducer⟩
    · rw [h.producer_iff v x hx i]
      have := (List.getElem?_eq_some_iff.1 hx).1
      exact (or_iff_left (by omega)).symm
    · rw [hproducer, or_iff_right (h.not_result hle), Option.some.injEq]
      omega

theorem Coherent.result (h : p.Coherent) {c : Call} {ids : List Nat}
    (hc : c.result p = .ok (q, ids)) : q.Coherent := by
  cases c with
  | addMesh name m =>
    cases hc
    exact h.congr rfl rfl h.arguments_lt h.outputs_lt h.groups_lt
  | addArgument shape s =>
    cases hc
    exact h.addArgument shape s
  | addOperation name operands shapes attributes => exact h.addOperation hc
  | setOutputs ids =>
    obtain ⟨_, hset, hc⟩ := bind_eq_ok_iff.1 hc
    obtain ⟨_, hcheck, hset⟩ := bind_eq_ok_iff.1 hset
    cases hset
    cases hc
    exact h.congr rfl rfl h.arguments_lt (lt_of_checkValues hcheck) h.groups_lt
  | addGroup ids =>
    obtain ⟨_, hadd, hc⟩ := bind_eq_ok_iff.1 hc
    obtain ⟨_, hcheck, hadd⟩ := bind_eq_ok_iff.1 hadd
    cases hadd
    cases hc
    refine h.congr rfl rfl h.arguments_lt h.outputs_lt fun group hgroup => ?_
    rcases List.mem_append.1 hgroup with hgroup | hgroup
    · exact h.groups_lt group hgroup
    · obtain rfl := List.mem_singleton.1 hgroup
      exact lt_of_checkValues hcheck
  | setSharding id s =>
    obtain ⟨_, hset, hc⟩ := bind_eq_ok_iff.1 hc
    cases hc
    unfold Program.setSharding at hset
    split at hset
    · cases hset
      refine h.congr (List.ext_getElem (by simp [putSharding]) fun i _ _ => ?_) rfl h.arguments_lt
        h.outputs_lt h.groups_lt
      simp only [putSharding, List.getElem_map, List.getElem_modify]
      split <;> rfl
    · cases hset
  | setRule id rule =>
    obtain ⟨_, hset, hc⟩ := bind_eq_ok_iff.1 hc
    cases hc
    obtain rfl := setRule_eq hset
    exact h.congr rfl (putRule_operations ..) h.arguments_lt h.outputs_lt h.groups_lt

theorem Coherent.run (h : p.Coherent) (c : Call) : (c.run p).2.Coherent := by
  rw [Call.run_eq]
  cases hc : c.result p with
  | error e => exact h
  | ok x => exact h.result hc

end calls

section operations

/-- Two operations that have a value as a result are the same one. -/
theorem eq_of_mem_results {operations : List Operation}
    (h : (operations.flatMap (·.results)).Nodup) {i j v : Nat} {o o' : Operation}
    (ho : operations[i]? = some o) (ho' : operations[j]? = some o') (hv : v ∈ o.results)
    (hv' : v ∈ o'.results) : i = j := by
  obtain ⟨hi, rfl⟩ := List.getElem?_eq_some_iff.1 ho
  obtain ⟨hj, rfl⟩ := List.getElem?_eq_some_iff.1 ho'
  have happart := List.pairwise_iff_getElem.1 (List.pairwise_flatMap.1 h).2
  rcases Nat.lt_trichotomy i j with hlt | heq | hlt
  · exact absurd rfl (happart i j hi hj hlt v hv v hv')
  · exact heq
  · exact absurd rfl (happart j i hj hi hlt v hv' v hv)

theorem producerIn_eq_some_iff {operations : List Operation}
    (h : (operations.flatMap (·.results)).Nodup) {v i : Nat} :
    producerIn operations v = some i ↔
      ∃ o : Operation, operations[i]? = some o ∧ v ∈ o.results := by
  let found := (operations.zipIdx.filter fun x => x.1.results.contains v).map (·.2)
  have hmem : ∀ j, j ∈ found ↔ ∃ o : Operation, operations[j]? = some o ∧ v ∈ o.results :=
    fun _ => mem_numbers
  rw [producerIn, ← List.getLast?_map]
  constructor
  · exact fun hlast => (hmem i).1 (List.mem_of_getLast? hlast)
  · rintro ⟨o, ho, hv⟩
    change found.getLast? = some i
    cases hlast : found.getLast? with
    | none =>
      rw [List.getLast?_eq_none_iff.1 hlast] at hmem
      exact absurd ((hmem i).2 ⟨o, ho, hv⟩) List.not_mem_nil
    | some j =>
      obtain ⟨o', ho', hv'⟩ := (hmem j).1 (List.mem_of_getLast? hlast)
      rw [eq_of_mem_results h ho' ho hv' hv]

/-- New operations over the values of the program and over further ones. -/
theorem Coherent.withOperations (h : p.Coherent) (extra : List Value)
    (operations : List Operation)
    (hoperands : ∀ o ∈ operations, ∀ v ∈ o.operands, v < (p.values ++ extra).length)
    (hresults : ∀ o ∈ operations, ∀ v ∈ o.results, v < (p.values ++ extra).length)
    (hnodup : (operations.flatMap (·.results)).Nodup) :
    ({ p with values := p.values ++ extra }.withOperations operations).Coherent := by
  refine h.replace (by simp) (by simpa using hoperands) (by simpa using hresults) hnodup
    fun v x hx i => ?_
  rw [List.getElem?_mapIdx] at hx
  obtain ⟨_, -, rfl⟩ := Option.map_eq_some_iff.1 hx
  exact producerIn_eq_some_iff hnodup

end operations

end Program
end MeshSharding
