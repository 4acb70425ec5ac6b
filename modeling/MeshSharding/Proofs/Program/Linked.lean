import MeshSharding.Proofs.Program.Order

/-! Links between values and operations. In a program that is built up from the empty one,
the producer of a value is the operation that has it as a result. -/
namespace MeshSharding
namespace Program

/-- Values know the operations that produce them. -/
structure Linked (p : Program) : Prop where
  producer_eq : ∀ (i : Nat) (o : Operation), p.operations[i]? = some o →
    ∀ v ∈ o.results, p.values[v]?.bind Value.producer = some i
  producer_lt : ∀ v ∈ p.values, ∀ i ∈ v.producer, i < p.operations.length

/-- The numbers of the operations that have a value among their `f`. -/
theorem mem_numbers {f : Operation → List Nat} {operations : List Operation} {v i : Nat} :
    i ∈ (operations.zipIdx.filter fun x => (f x.1).contains v).map (·.2) ↔
      ∃ o, operations[i]? = some o ∧ v ∈ f o := by
  simp only [List.mem_map, List.mem_filter, List.mem_zipIdx_iff_getElem?,
    List.contains_iff_mem, Prod.exists, exists_eq_right]

theorem mem_usersOf {p : Program} {v i : Nat} :
    i ∈ p.usersOf v ↔ ∃ o, p.operations[i]? = some o ∧ v ∈ o.operands :=
  mem_numbers

/-- Rules, and all of a value but its producer, have no part in the links. -/
theorem Linked.congr {p q : Program} (h : p.Linked)
    (hv : q.values.map (·.producer) = p.values.map (·.producer))
    (ho : q.operations.map Operation.withoutRule = p.operations.map Operation.withoutRule) :
    q.Linked := by
  have hlen : q.operations.length = p.operations.length := by
    simpa using congrArg List.length ho
  refine ⟨fun i o hi v hmem => ?_, fun v hmem i hi => ?_⟩
  · obtain ⟨o', hi', -, hresults⟩ := exists_results_of_withoutRule ho hi
    have hproducer := congrArg (fun l => l[v]?.join) hv
    simp only [List.getElem?_map, ← Option.bind_id_eq_join, Option.bind_map,
      Function.id_comp] at hproducer
    exact hproducer.trans (h.producer_eq i o' hi' v (hresults ▸ hmem))
  · obtain ⟨v', hmem', heq⟩ := List.mem_map.1 (hv ▸ List.mem_map_of_mem hmem)
    exact hlen ▸ h.producer_lt v' hmem' i (heq ▸ hi)

theorem Linked.results_lt {p : Program} (h : p.Linked) {o : Operation} (ho : o ∈ p.operations) :
    ∀ v ∈ o.results, v < p.values.length := by
  intro v hv
  obtain ⟨i, hi⟩ := List.getElem?_of_mem ho
  obtain ⟨_, hx, -⟩ := Option.bind_eq_some_iff.1 (h.producer_eq i o hi v hv)
  exact (List.getElem?_eq_some_iff.1 hx).1

theorem Linked.addArgument {p : Program} (h : p.Linked) (shape : Shape)
    (s : Option TensorSharding) : (p.addArgument shape s).1.Linked := by
  refine ⟨fun i o hi v hmem => ?_, fun v hmem i hi => ?_⟩
  · have hlt := h.results_lt (List.mem_of_getElem? hi) v hmem
    rw [← h.producer_eq i o hi v hmem]
    simp only [Program.addArgument, pushValue, List.getElem?_append_left hlt]
  · rcases List.mem_append.1 hmem with hmem | hmem
    · exact h.producer_lt v hmem i hi
    · obtain rfl := List.mem_singleton.1 hmem
      cases hi

theorem Linked.addOperation {p q : Program} {name : String} {operands results : List Nat}
    {shapes : List Shape} {attributes : Attributes} (h : p.Linked)
    (hadd : p.addOperation name operands shapes attributes = .ok (q, results)) : q.Linked := by
  obtain ⟨-, rfl, rfl⟩ := addOperation_eq hadd
  refine ⟨fun i o hi v hmem => ?_, fun v hmem i hi => ?_⟩
  · by_cases hlt : i < p.operations.length
    · rw [List.getElem?_append_left hlt] at hi
      have hv := h.results_lt (List.mem_of_getElem? hi) v hmem
      rw [← h.producer_eq i o hi v hmem]
      simp only [List.getElem?_append_left hv]
    · rw [List.getElem?_append_right (by omega)] at hi
      obtain ⟨hi', rfl⟩ := List.getElem?_eq_some_iff.1 hi
      simp only [List.length_singleton] at hi'
      simp only [List.getElem_singleton] at hmem
      have hv := List.mem_range'_1.1 hmem
      rw [List.getElem?_append_right hv.1, List.getElem?_map,
        List.getElem?_eq_getElem (by omega)]
      simp only [Option.map_some, Option.bind_some, Option.some.injEq]
      omega
  · simp only [List.length_append, List.length_singleton]
    rcases List.mem_append.1 hmem with hmem | hmem
    · have := h.producer_lt v hmem i hi
      omega
    · obtain ⟨shape, -, rfl⟩ := List.mem_map.1 hmem
      cases hi
      omega

theorem Built.linked {p : Program} (h : Built p) : p.Linked := by
  induction h with
  | empty => exact ⟨by simp [Program.empty], nofun⟩
  | addMesh name m _ ih => exact ih.congr rfl rfl
  | addArgument shape s _ ih => exact ih.addArgument shape s
  | addOperation _ hadd ih => exact ih.addOperation hadd
  | @setOutputs p q ids _ hset ih =>
    obtain ⟨_, _, hq⟩ := bind_eq_ok_iff.1 hset
    cases hq
    exact ih.congr rfl rfl
  | @addGroup p q ids _ hadd ih =>
    obtain ⟨_, _, hq⟩ := bind_eq_ok_iff.1 hadd
    cases hq
    exact ih.congr rfl rfl
  | @setSharding p q id s _ hset ih =>
    unfold Program.setSharding at hset
    split at hset
    · cases hset
      refine ih.congr (List.ext_getElem (by simp [putSharding]) fun i _ _ => ?_) rfl
      simp only [putSharding, List.getElem_map, List.getElem_modify]
      split <;> rfl
    · cases hset
  | @setRule p q id rule _ hset ih =>
    obtain rfl := setRule_eq hset
    exact ih.congr rfl (putRule_operations ..)

section single

/-- A program of one operation, which computes its result from the arguments. -/
def single (m : Mesh) (operands : List (Shape × Option TensorSharding)) (name : String) (r : Rule)
    (shape : Shape) (result : Option TensorSharding) : Program where
  meshes := [("mesh", m)]
  values := operands.map (fun x => ⟨x.1, x.2, none⟩) ++ [⟨shape, result, some 0⟩]
  operations := [⟨name, List.range operands.length, [operands.length], [], some r⟩]
  arguments := List.range operands.length
  outputs := [operands.length]
  groups := []

variable (m : Mesh) (operands : List (Shape × Option TensorSharding)) (name : String) (r : Rule)
  (shape : Shape) (result : Option TensorSharding)

theorem wellFormed_single : (single m operands name r shape result).WellFormed where
  arguments_lt a ha := by
    have := List.mem_range.1 ha
    simp only [single, List.length_append, List.length_map, List.length_singleton]
    omega
  results_lt o ho a ha := by
    cases List.mem_singleton.1 ho
    cases List.mem_singleton.1 ha
    simp [single]
  ordered := ⟨List.Subset.refl _, trivial⟩

theorem linked_single : (single m operands name r shape result).Linked := by
  refine ⟨fun i o hi v hv => ?_, fun v hv i hi => ?_⟩
  · cases i with
    | zero =>
      cases hi
      cases List.mem_singleton.1 hv
      simp [single]
    | succ i => cases hi
  · rcases List.mem_append.1 hv with hv | hv
    · obtain ⟨x, -, rfl⟩ := List.mem_map.1 hv
      cases hi
    · cases List.mem_singleton.1 hv
      cases hi
      exact Nat.one_pos

theorem signatureOf_single : ∀ o ∈ (single m operands name r shape result).operations,
    (single m operands name r shape result).signatureOf o = ⟨operands.map (·.1), [shape]⟩ := by
  intro o ho
  cases List.mem_singleton.1 ho
  have hoperands : (List.range operands.length).map (single m operands name r shape result).shapeOf
      = operands.map (·.1) := by
    refine List.ext_getElem (by simp) fun i hi _ => ?_
    have hlt : i < operands.length := by simpa using hi
    simp [single, shapeOf, List.getElem?_append_left, hlt]
  simp only [signatureOf, hoperands, List.map_cons, List.map_nil]
  simp [single, shapeOf]

end single

end Program
end MeshSharding
