import MeshSharding.Program

/-! The order of programs. In a program built up from the empty one, operations use only
arguments and results of earlier operations. -/
namespace MeshSharding

/-- The operation without its sharding rule. -/
def Operation.withoutRule (o : Operation) : Operation := { o with rule := none }

namespace Program

theorem operation_eq_ok_iff {p : Program} {id : Nat} {o : Operation} :
    p.operation id = .ok o ↔ p.operations[id]? = some o := by
  unfold Program.operation
  cases p.operations[id]? <;> simp

theorem value_eq_ok_iff {p : Program} {id : Nat} {v : Value} :
    p.value id = .ok v ↔ p.values[id]? = some v := by
  unfold Program.value
  cases p.values[id]? <;> simp

/-- Each operation uses only `known` values and results of the operations before it. -/
def UsesEarlier (known : List Nat) : List Operation → Prop
  | [] => True
  | o :: rest => o.operands ⊆ known ∧ UsesEarlier (known ++ o.results) rest

/-- The values in use exist, and operations use only earlier ones. -/
structure WellFormed (p : Program) : Prop where
  arguments_lt : ∀ a ∈ p.arguments, a < p.values.length
  results_lt : ∀ o ∈ p.operations, ∀ a ∈ o.results, a < p.values.length
  ordered : UsesEarlier p.arguments p.operations

section order

variable {known known' : List Nat} {l r : List Operation}

theorem UsesEarlier.mono (h : UsesEarlier known l) (hk : known ⊆ known') :
    UsesEarlier known' l := by
  induction l generalizing known known' with
  | nil => trivial
  | cons o rest ih =>
    exact ⟨fun a ha => hk (h.1 ha), ih h.2 (List.append_subset.2
      ⟨fun a ha => List.mem_append_left _ (hk ha), List.subset_append_right _ _⟩)⟩

theorem usesEarlier_append : UsesEarlier known (l ++ r) ↔
    UsesEarlier known l ∧ UsesEarlier (known ++ l.flatMap (·.results)) r := by
  induction l generalizing known with
  | nil => simp [UsesEarlier]
  | cons o rest ih => simp [UsesEarlier, ih, and_assoc]

/-- What an operation uses is known or the result of some operation. -/
theorem UsesEarlier.operands_subset (h : UsesEarlier known l) {o : Operation} (ho : o ∈ l) :
    o.operands ⊆ known ++ l.flatMap (·.results) := by
  obtain ⟨pre, post, rfl⟩ := List.append_of_mem ho
  intro a ha
  have := (usesEarlier_append.1 h).2.1 ha
  simp only [List.flatMap_append, List.mem_append] at this ⊢
  exact this.imp_right .inl

theorem WellFormed.operands_lt {p : Program} (h : p.WellFormed) {o : Operation}
    (ho : o ∈ p.operations) : ∀ a ∈ o.operands, a < p.values.length := by
  intro a ha
  rcases List.mem_append.1 (h.ordered.operands_subset ho ha) with hmem | hmem
  · exact h.arguments_lt a hmem
  · obtain ⟨o', ho', hr⟩ := List.mem_flatMap.1 hmem
    exact h.results_lt o' ho' a hr

theorem usesEarlier_map_withoutRule :
    UsesEarlier known (l.map Operation.withoutRule) ↔ UsesEarlier known l := by
  induction l generalizing known with
  | nil => rfl
  | cons o rest ih => exact and_congr_right fun _ => ih

theorem flatMap_results_map_withoutRule (l : List Operation) :
    (l.map Operation.withoutRule).flatMap (·.results) = l.flatMap (·.results) := by
  rw [List.flatMap_map]
  rfl

/-- Operations that differ in their rules only have the same operands and results. -/
theorem exists_results_of_withoutRule {l l' : List Operation}
    (h : l'.map Operation.withoutRule = l.map Operation.withoutRule) {i : Nat} {o : Operation}
    (ho : l'[i]? = some o) :
    ∃ o', l[i]? = some o' ∧ o'.operands = o.operands ∧ o'.results = o.results := by
  have hi : (l.map Operation.withoutRule)[i]? = some o.withoutRule := by
    rw [← h, List.getElem?_map, ho]
    rfl
  rw [List.getElem?_map] at hi
  obtain ⟨o', ho', heq⟩ := Option.map_eq_some_iff.1 hi
  exact ⟨o', ho', congrArg (fun x => x.operands) heq, congrArg (fun x => x.results) heq⟩

/-- Rules and shardings have no part in the order. -/
theorem WellFormed.congr {p q : Program} (h : p.WellFormed) (ha : q.arguments = p.arguments)
    (hv : q.values.length = p.values.length)
    (ho : q.operations.map Operation.withoutRule = p.operations.map Operation.withoutRule) :
    q.WellFormed := by
  refine ⟨fun a hmem => hv ▸ h.arguments_lt a (ha ▸ hmem), fun o hmem a har => ?_, ?_⟩
  · have hresult : a ∈ (q.operations.map Operation.withoutRule).flatMap (·.results) := by
      rw [flatMap_results_map_withoutRule]
      exact List.mem_flatMap.2 ⟨o, hmem, har⟩
    rw [ho, flatMap_results_map_withoutRule] at hresult
    obtain ⟨o', hmem', har'⟩ := List.mem_flatMap.1 hresult
    exact hv ▸ h.results_lt o' hmem' a har'
  · rw [ha, ← usesEarlier_map_withoutRule, ho, usesEarlier_map_withoutRule]
    exact h.ordered

end order

section lookup

variable {p : Program} {v : Nat}

/-- Values that are added do not change the ones that are there. -/
theorem shapeOf_append_of_lt (hv : v < p.values.length) (extra : List Value) :
    ({ p with values := p.values ++ extra } : Program).shapeOf v = p.shapeOf v := by
  rw [shapeOf, List.getElem?_append_left hv, shapeOf]

theorem sharding?_append_of_lt (hv : v < p.values.length) (extra : List Value) :
    ({ p with values := p.values ++ extra } : Program).sharding? v = p.sharding? v := by
  rw [sharding?, List.getElem?_append_left hv, sharding?]

end lookup

section built

/-- The programs that can be built. -/
inductive Built : Program → Prop
  | empty : Built .empty
  | addMesh {p : Program} (name : String) (m : Mesh) : Built p → Built (p.addMesh name m)
  | addArgument {p : Program} (shape : Shape) (s : Option TensorSharding) :
      Built p → Built (p.addArgument shape s).1
  | addOperation {p q : Program} {name : String} {operands results : List Nat}
      {shapes : List Shape} {attributes : Attributes} :
      Built p → p.addOperation name operands shapes attributes = .ok (q, results) → Built q
  | setOutputs {p q : Program} {ids : List Nat} : Built p → p.setOutputs ids = .ok q → Built q
  | addGroup {p q : Program} {ids : List Nat} : Built p → p.addGroup ids = .ok q → Built q
  | setSharding {p q : Program} {id : Nat} {s : Option TensorSharding} :
      Built p → p.setSharding id s = .ok q → Built q
  | setRule {p q : Program} {id : Nat} {rule : Option Rule} :
      Built p → p.setRule id rule = .ok q → Built q

/-- Every value is an argument or a result. -/
def AllDefined (p : Program) : Prop :=
  ∀ a < p.values.length, a ∈ p.arguments ∨ a ∈ p.operations.flatMap (·.results)

theorem AllDefined.congr {p q : Program} (h : p.AllDefined) (ha : q.arguments = p.arguments)
    (hv : q.values.length = p.values.length)
    (ho : q.operations.map Operation.withoutRule = p.operations.map Operation.withoutRule) :
    q.AllDefined := by
  intro a hlt
  rw [ha, ← flatMap_results_map_withoutRule, ho, flatMap_results_map_withoutRule]
  exact h a (hv ▸ hlt)

theorem lt_of_checkValues {p : Program} {ids : List Nat} (h : p.checkValues ids = .ok ()) :
    ∀ a ∈ ids, a < p.values.length := by
  unfold checkValues at h
  split at h
  · cases h
  · rename_i hnone
    intro a ha
    simpa using List.find?_eq_none.1 hnone a ha

theorem addOperation_eq {p q : Program} {name : String} {operands results : List Nat}
    {shapes : List Shape} {attributes : Attributes}
    (h : p.addOperation name operands shapes attributes = .ok (q, results)) :
    (∀ a ∈ operands, a < p.values.length) ∧
      results = List.range' p.values.length shapes.length ∧
      q = { p with
        values := p.values ++ shapes.map fun shape => ⟨shape, none, some p.operations.length⟩
        operations := p.operations ++ [⟨name, operands, results, attributes, none⟩] } := by
  unfold addOperation at h
  cases hc : p.checkValues operands with
  | error e => simp [hc, bind, Except.bind] at h
  | ok _ =>
    simp only [hc, bind, Except.bind, pure, Except.pure, Except.ok.injEq, Prod.mk.injEq] at h
    exact ⟨lt_of_checkValues hc, h.2.symm, by rw [← h.1, ← h.2]⟩

theorem setRule_eq {p q : Program} {k : Nat} {rule : Option Rule} (h : p.setRule k rule = .ok q) :
    q = p.putRule k rule := by
  unfold Program.setRule at h
  split at h
  · cases h; rfl
  · cases h

theorem putRule_operations (p : Program) (k : Nat) (rule : Option Rule) :
    (p.putRule k rule).operations.map Operation.withoutRule
      = p.operations.map Operation.withoutRule := by
  refine List.ext_getElem (by simp [putRule]) fun i _ _ => ?_
  simp only [putRule, List.getElem_map, List.getElem_modify]
  split <;> rfl

theorem wellFormed_and_allDefined_addArgument {p : Program} (hw : p.WellFormed)
    (hd : p.AllDefined) (shape : Shape) (s : Option TensorSharding) :
    (p.addArgument shape s).1.WellFormed ∧ (p.addArgument shape s).1.AllDefined := by
  refine ⟨⟨?_, ?_, hw.ordered.mono (List.subset_append_left _ _)⟩, ?_⟩
  · intro a ha
    rcases List.mem_append.1 ha with ha | ha
    · have := hw.arguments_lt a ha
      simp [Program.addArgument, pushValue]
      omega
    · simp [Program.addArgument, pushValue] at ha ⊢
      omega
  · intro o ho a ha
    have := hw.results_lt o ho a ha
    simp [Program.addArgument, pushValue]
    omega
  · intro a ha
    simp only [Program.addArgument, pushValue, List.length_append, List.length_singleton,
      List.mem_append, List.mem_singleton] at ha ⊢
    by_cases heq : a = p.values.length
    · exact .inl (.inr heq)
    · exact (hd a (by omega)).imp_left .inl

theorem wellFormed_and_allDefined_addOperation {p q : Program} {name : String}
    {operands results : List Nat} {shapes : List Shape} {attributes : Attributes}
    (hw : p.WellFormed) (hd : p.AllDefined)
    (hadd : p.addOperation name operands shapes attributes = .ok (q, results)) :
    q.WellFormed ∧ q.AllDefined := by
  obtain ⟨hoperands, rfl, rfl⟩ := addOperation_eq hadd
  refine ⟨⟨?_, ?_, usesEarlier_append.2 ⟨hw.ordered, ?_, trivial⟩⟩, ?_⟩
  · intro a ha
    have := hw.arguments_lt a ha
    simp only [List.length_append]
    omega
  · intro o ho a ha
    simp only [List.length_append, List.length_map]
    rcases List.mem_append.1 ho with ho | ho
    · have := hw.results_lt o ho a ha
      omega
    · obtain rfl := List.mem_singleton.1 ho
      have := (List.mem_range'_1.1 ha).2
      omega
  · intro a ha
    exact List.mem_append.2 (hd a (hoperands a ha))
  · intro a ha
    simp only [List.length_append, List.length_map, List.flatMap_append, List.flatMap_cons,
      List.flatMap_nil, List.append_nil, List.mem_append, List.mem_range'_1] at ha ⊢
    by_cases hlt : a < p.values.length
    · exact (hd a hlt).imp_right .inl
    · exact .inr (.inr ⟨by omega, ha⟩)

/-- In a program that is built up from the empty one, operations use earlier values, and every
value is defined. -/
theorem Built.wellFormed_and_allDefined {p : Program} (h : Built p) :
    p.WellFormed ∧ p.AllDefined := by
  induction h with
  | empty => exact ⟨⟨nofun, nofun, trivial⟩, nofun⟩
  | addMesh name m _ ih => exact ⟨ih.1.congr rfl rfl rfl, ih.2.congr rfl rfl rfl⟩
  | addArgument shape s _ ih => exact wellFormed_and_allDefined_addArgument ih.1 ih.2 shape s
  | addOperation _ hadd ih => exact wellFormed_and_allDefined_addOperation ih.1 ih.2 hadd
  | @setOutputs p q ids _ hset ih =>
    obtain ⟨_, _, hq⟩ := bind_eq_ok_iff.1 hset
    cases hq
    exact ⟨ih.1.congr rfl rfl rfl, ih.2.congr rfl rfl rfl⟩
  | @addGroup p q ids _ hadd ih =>
    obtain ⟨_, _, hq⟩ := bind_eq_ok_iff.1 hadd
    cases hq
    exact ⟨ih.1.congr rfl rfl rfl, ih.2.congr rfl rfl rfl⟩
  | @setSharding p q id s _ hset ih =>
    unfold Program.setSharding at hset
    split at hset
    · cases hset
      have hlen : (p.putSharding id s).values.length = p.values.length := by simp [putSharding]
      exact ⟨ih.1.congr rfl hlen rfl, ih.2.congr rfl hlen rfl⟩
    · cases hset
  | @setRule p q id rule _ hset ih =>
    obtain rfl := setRule_eq hset
    exact ⟨ih.1.congr rfl rfl (putRule_operations ..), ih.2.congr rfl rfl (putRule_operations ..)⟩

end built

end Program
end MeshSharding
