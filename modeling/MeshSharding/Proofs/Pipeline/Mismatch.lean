import MeshSharding.Proofs.Pipeline.Expectation
import MeshSharding.Proofs.Pipeline.Export

/-! Mismatches. If collectives are inserted, they are all that operations expect of operands, and
else there are none. -/
namespace MeshSharding
namespace Export

open Program

variable {options : Options} {p : Program} {operation operand value : Nat} {o : Operation}
  {r : Rule} {values : List Nat} {operations : List Operation} {mismatches : List Mismatch}
  {x : Mismatch}

section operands

theorem operandMismatches_cons_eq_ok
    (h : operandMismatches options p operation o r operand (value :: values) = .ok mismatches) :
    ∃ more, operandMismatches options p operation o r (operand + 1) values = .ok more ∧
      (mismatches = more ∧
          (expectation p o r operand value = .ok none ∨ options.insertsCollectives = false) ∨
        options.insertsCollectives = true ∧ ∃ expected reference,
          expectation p o r operand value = .ok (some (expected, reference)) ∧
          mismatches = ⟨operation, operand, expected⟩ :: more) := by
  rw [operandMismatches] at h
  obtain ⟨_ | ⟨expected, reference⟩, hexpectation, h⟩ := bind_eq_ok_iff.1 h
  · exact ⟨mismatches, h, .inl ⟨rfl, .inl hexpectation⟩⟩
  · dsimp only at h
    split at h
    · rename_i hinserts
      obtain ⟨more, hmore, h⟩ := bind_eq_ok_iff.1 h
      cases h
      exact ⟨more, hmore, .inr ⟨hinserts, expected, reference, hexpectation, rfl⟩⟩
    · rename_i hinserts
      split at h
      · cases h
      · exact ⟨mismatches, h, .inl ⟨rfl, .inr (Bool.eq_false_iff.2 hinserts)⟩⟩

theorem mem_operandMismatches
    (h : operandMismatches options p operation o r operand values = .ok mismatches)
    (hx : x ∈ mismatches) : options.insertsCollectives = true ∧ x.operation = operation ∧
      ∃ i value reference, x.operand = operand + i ∧ values[i]? = some value ∧
        expectation p o r x.operand value = .ok (some (x.expected, reference)) := by
  induction values generalizing operand mismatches with
  | nil =>
    cases h
    cases hx
  | cons first rest ih =>
    obtain ⟨more, hmore, hmismatches⟩ := operandMismatches_cons_eq_ok h
    have hlater : x ∈ more → options.insertsCollectives = true ∧ x.operation = operation ∧
        ∃ i value reference, x.operand = operand + i ∧ (first :: rest)[i]? = some value ∧
          expectation p o r x.operand value = .ok (some (x.expected, reference)) := fun hx => by
      obtain ⟨hinserts, hoperation, i, value, reference, hoperand, hrest⟩ := ih hmore hx
      exact ⟨hinserts, hoperation, i + 1, value, reference, by omega, hrest⟩
    rcases hmismatches with ⟨rfl, -⟩ | ⟨hinserts, expected, reference, hexpectation, rfl⟩
    · exact hlater hx
    · rcases List.mem_cons.1 hx with rfl | hx
      · exact ⟨hinserts, rfl, 0, first, reference, rfl, rfl, hexpectation⟩
      · exact hlater hx

theorem exists_mem_operandMismatches (hinserts : options.insertsCollectives = true)
    (h : operandMismatches options p operation o r operand values = .ok mismatches) {i : Nat}
    (hvalue : values[i]? = some value) : expectation p o r (operand + i) value = .ok none ∨
      ∃ x ∈ mismatches, x.operation = operation ∧ x.operand = operand + i := by
  induction values generalizing operand mismatches i with
  | nil => cases hvalue
  | cons first rest ih =>
    obtain ⟨more, hmore, hmismatches⟩ := operandMismatches_cons_eq_ok h
    have hsubset : more ⊆ mismatches := by
      rcases hmismatches with ⟨rfl, -⟩ | ⟨-, _, _, -, rfl⟩
      · exact List.Subset.refl _
      · exact List.subset_cons_self ..
    cases i with
    | zero =>
      cases hvalue
      rcases hmismatches with ⟨rfl, hnone | hinserts'⟩ | ⟨-, expected, reference, -, rfl⟩
      · exact .inl hnone
      · rw [hinserts] at hinserts'
        cases hinserts'
      · exact .inr ⟨_, List.mem_cons_self, rfl, rfl⟩
    | succ i =>
      have hlater := ih hmore hvalue
      rw [Nat.add_assoc, Nat.add_comm 1] at hlater
      exact hlater.imp_right fun ⟨x, hx, hrest⟩ => ⟨x, hsubset hx, hrest⟩

theorem exists_operandMismatches (operand : Nat)
    (h : ∀ (i v : Nat), values[i]? = some v → expectation p o r (operand + i) v = .ok none ∨
      options.insertsCollectives = true ∧ ∃ x, expectation p o r (operand + i) v = .ok x) :
    ∃ mismatches, operandMismatches options p operation o r operand values = .ok mismatches := by
  induction values generalizing operand with
  | nil => exact ⟨[], rfl⟩
  | cons v values ih =>
    obtain ⟨more, hmore⟩ := ih (operand + 1) fun i v hv => by
      rw [Nat.add_right_comm, Nat.add_assoc]
      exact h (i + 1) v hv
    have hfirst := h 0 v rfl
    rw [Nat.add_zero] at hfirst
    rw [operandMismatches]
    rcases hfirst with hnone | ⟨hinserts, _ | ⟨expected, reference⟩, hx⟩
    · exact ⟨more, by simp only [hnone, bind, Except.bind, hmore]⟩
    · exact ⟨more, by simp only [hx, bind, Except.bind, hmore]⟩
    · exact ⟨_, by simp only [hx, bind, Except.bind, hmore, hinserts, if_true]; rfl⟩

end operands

section program

theorem mismatchesFrom_cons_eq_ok
    (h : mismatchesFrom options p operation (o :: operations) = .ok mismatches) :
    ∃ here more, (∀ r, o.rule = some r →
        operandMismatches options p operation o r 0 o.operands = .ok here) ∧
      (o.rule = none → here = []) ∧
      mismatchesFrom options p (operation + 1) operations = .ok more ∧
      mismatches = here ++ more := by
  rw [mismatchesFrom] at h
  cases hrule : o.rule with
  | none =>
    rw [hrule] at h
    obtain ⟨here, hhere, h⟩ := bind_eq_ok_iff.1 h
    obtain ⟨more, hmore, h⟩ := bind_eq_ok_iff.1 h
    cases hhere
    cases h
    exact ⟨[], more, nofun, fun _ => rfl, hmore, rfl⟩
  | some rule =>
    rw [hrule] at h
    obtain ⟨here, hhere, h⟩ := bind_eq_ok_iff.1 h
    obtain ⟨more, hmore, h⟩ := bind_eq_ok_iff.1 h
    cases h
    refine ⟨here, more, fun r hr => ?_, nofun, hmore, rfl⟩
    cases hr
    exact hhere

theorem mem_mismatchesFrom
    (h : mismatchesFrom options p operation operations = .ok mismatches) (hx : x ∈ mismatches) :
    ∃ i o r here, operations[i]? = some o ∧ o.rule = some r ∧
      operandMismatches options p (operation + i) o r 0 o.operands = .ok here ∧ x ∈ here := by
  induction operations generalizing operation mismatches with
  | nil =>
    cases h
    cases hx
  | cons o rest ih =>
    obtain ⟨here, more, hhere, hnil, hmore, rfl⟩ := mismatchesFrom_cons_eq_ok h
    rcases List.mem_append.1 hx with hx | hx
    · cases hrule : o.rule with
      | none =>
        rw [hnil hrule] at hx
        cases hx
      | some r => exact ⟨0, o, r, here, rfl, hrule, hhere r hrule, hx⟩
    · obtain ⟨i, o', r, here', ho', hr, hoperands, hx⟩ := ih hmore hx
      rw [Nat.add_assoc, Nat.add_comm 1] at hoperands
      exact ⟨i + 1, o', r, here', ho', hr, hoperands, hx⟩

theorem exists_subset_mismatchesFrom
    (h : mismatchesFrom options p operation operations = .ok mismatches) {i : Nat}
    (ho : operations[i]? = some o) (hr : o.rule = some r) :
    ∃ here, operandMismatches options p (operation + i) o r 0 o.operands = .ok here ∧
      here ⊆ mismatches := by
  induction operations generalizing operation mismatches i with
  | nil => cases ho
  | cons first rest ih =>
    obtain ⟨here, more, hhere, -, hmore, rfl⟩ := mismatchesFrom_cons_eq_ok h
    cases i with
    | zero =>
      cases ho
      exact ⟨here, hhere r hr, List.subset_append_left ..⟩
    | succ i =>
      obtain ⟨here', hhere', hsubset⟩ := ih hmore ho
      rw [Nat.add_assoc, Nat.add_comm 1] at hhere'
      exact ⟨here', hhere', List.Subset.trans hsubset (List.subset_append_right ..)⟩

theorem exists_mismatchesFrom (operation : Nat)
    (h : ∀ i o r, operations[i]? = some o → o.rule = some r →
      ∃ here, operandMismatches options p (operation + i) o r 0 o.operands = .ok here) :
    ∃ mismatches, mismatchesFrom options p operation operations = .ok mismatches := by
  induction operations generalizing operation with
  | nil => exact ⟨[], rfl⟩
  | cons o rest ih =>
    obtain ⟨more, hmore⟩ := ih (operation + 1) fun i o r ho hr => by
      rw [Nat.add_assoc, Nat.add_comm 1]
      exact h (i + 1) o r ho hr
    rw [mismatchesFrom]
    cases hrule : o.rule with
    | none => exact ⟨more, by simp only [bind, Except.bind, pure, Except.pure, hmore]; rfl⟩
    | some r =>
      obtain ⟨here, hhere⟩ := h 0 o r rfl hrule
      rw [Nat.add_zero] at hhere
      exact ⟨here ++ more, by simp only [bind, Except.bind, hhere, hmore]; rfl⟩

/-- The operation that has the mismatch expects this sharding of the operand. -/
def Arises (p : Program) (x : Mismatch) : Prop :=
  ∃ o r value reference, p.operations[x.operation]? = some o ∧ o.rule = some r ∧
    o.operands[x.operand]? = some value ∧
    expectation p o r x.operand value = .ok (some (x.expected, reference))

theorem arises_of_mem (h : mismatchesFrom options p 0 p.operations = .ok mismatches)
    (hx : x ∈ mismatches) : Arises p x := by
  obtain ⟨i, o, r, here, ho, hr, hhere, hx⟩ := mem_mismatchesFrom h hx
  obtain ⟨-, hoperation, j, value, reference, hoperand, hvalue, hexpectation⟩ :=
    mem_operandMismatches hhere hx
  rw [Nat.zero_add] at hoperation hoperand
  exact ⟨o, r, value, reference, hoperation ▸ ho, hr, hoperand ▸ hvalue, hexpectation⟩

/-- With collectives, whatever an operation expects of an operand is a mismatch. -/
theorem exists_mem_of_expectation (hinserts : options.insertsCollectives = true)
    (h : mismatchesFrom options p 0 p.operations = .ok mismatches)
    (ho : p.operations[operation]? = some o) (hr : o.rule = some r)
    (hvalue : o.operands[operand]? = some value) :
    expectation p o r operand value = .ok none ∨
      ∃ x ∈ mismatches, x.operation = operation ∧ x.operand = operand := by
  obtain ⟨here, hhere, hsubset⟩ := exists_subset_mismatchesFrom h ho hr
  have hfound := exists_mem_operandMismatches hinserts hhere hvalue
  rw [Nat.zero_add, Nat.zero_add] at hfound
  exact hfound.imp_right fun ⟨x, hx, hrest⟩ => ⟨x, hsubset hx, hrest⟩

end program

section quiet

/-- No collective is inserted for the operand. -/
def Rests (p : Program) (o : Operation) (r : Rule) (operand value : Nat) : Prop :=
  expectation p o r operand value = .ok none ∨
    ∃ expected reference, expectation p o r operand value = .ok (some (expected, reference)) ∧
      Skips p value expected

/-- No mismatch of the operation needs a collective. -/
def Quiet (options : Options) (p : Program) (operation : Nat) (o : Operation) (r : Rule) : Prop :=
  ∃ mismatches, operandMismatches options p operation o r 0 o.operands = .ok mismatches ∧
    ∀ x ∈ mismatches, ∃ source, o.operands[x.operand]? = some source ∧ Skips p source x.expected

/-- An operation is quiet if its mismatches are found and those that are made explicit need no
collective. -/
theorem quiet_of_operandMismatches
    (h : operandMismatches options p operation o r 0 o.operands = .ok mismatches)
    (hskips : options.insertsCollectives = true → ∀ (j v : Nat) expected reference,
      o.operands[j]? = some v → expectation p o r j v = .ok (some (expected, reference)) →
      Skips p v expected) : Quiet options p operation o r := by
  refine ⟨mismatches, h, fun x hx => ?_⟩
  obtain ⟨hinserts, -, i, v, reference, hi, hv, he⟩ := mem_operandMismatches h hx
  rw [Nat.zero_add] at hi
  rw [← hi] at hv
  exact ⟨v, hv, hskips hinserts _ v _ reference hv he⟩

theorem quiet_of_rests (h : ∀ j v, o.operands[j]? = some v → expectation p o r j v = .ok none ∨
    options.insertsCollectives = true ∧ Rests p o r j v) : Quiet options p operation o r := by
  have htotal : ∀ (j v : Nat), o.operands[j]? = some v → expectation p o r (0 + j) v = .ok none ∨
      options.insertsCollectives = true ∧ ∃ x, expectation p o r (0 + j) v = .ok x := by
    intro j v hv
    rw [Nat.zero_add]
    refine (h j v hv).imp_right (And.imp_right ?_)
    rintro (hnone | ⟨expected, reference, hx, -⟩)
    · exact ⟨none, hnone⟩
    · exact ⟨_, hx⟩
  obtain ⟨mismatches, hmismatches⟩ := exists_operandMismatches 0 htotal
  refine quiet_of_operandMismatches hmismatches fun _ j v expected reference hv he => ?_
  rcases h j v hv with hnone | ⟨-, hnone | ⟨expected', reference', hsome, hskips⟩⟩
  · cases he.symm.trans hnone
  · cases he.symm.trans hnone
  · cases he.symm.trans hsome
    exact hskips

/-- Mismatches that need no collective are passed over. -/
theorem insertions_eq_self
    (h : ∀ x ∈ mismatches, ∃ o source, p.operations[x.operation]? = some o ∧
      o.operands[x.operand]? = some source ∧ Skips p source x.expected) :
    insertions p mismatches = .ok (p, []) := by
  induction mismatches with
  | nil => rfl
  | cons x rest ih =>
    rw [List.forall_mem_cons] at h
    obtain ⟨⟨o, source, ho, hsource, s, m, hs, hm, hreshard⟩, hrest⟩ := h
    obtain ⟨v, hv, hs⟩ := Option.bind_eq_some_iff.1 hs
    rw [insertions, operation_eq_ok_iff.2 ho]
    simp only [bind, Except.bind, valueAt_operand_eq_ok_iff.2 hsource, value_eq_ok_iff.2 hv, hs, hm,
      hreshard, List.isEmpty_nil, if_true]
    exact ih hrest

/-- A program whose operations are all quiet is left as it is. -/
theorem insertReshards_eq_self (hproduced : p.withOperations p.operations = p)
    (h : ∀ i o r, p.operations[i]? = some o → o.rule = some r → Quiet options p i o r) :
    insertReshards options p = .ok (p, []) := by
  obtain ⟨mismatches, hmismatches⟩ := exists_mismatchesFrom 0 fun i o r ho hr => by
    obtain ⟨here, hhere, -⟩ := h i o r ho hr
    exact ⟨here, (Nat.zero_add i).symm ▸ hhere⟩
  have hself : insertions p mismatches = .ok (p, []) := insertions_eq_self fun x hx => by
    obtain ⟨i, o, r, here, ho, hr, hhere, hx⟩ := mem_mismatchesFrom hmismatches hx
    rw [Nat.zero_add] at hhere
    obtain ⟨-, hoperation, -⟩ := mem_operandMismatches hhere hx
    obtain ⟨here', hhere', hall⟩ := h i o r ho hr
    cases hhere.symm.trans hhere'
    obtain ⟨source, hsource, hskips⟩ := hall x hx
    exact ⟨o, source, hoperation ▸ ho, hsource, hskips⟩
  rw [insertReshards, hmismatches]
  cases mismatches with
  | nil => rfl
  | cons x rest =>
    simp only [bind, Except.bind, List.isEmpty_cons, hself, splice_nil, hproduced]
    rfl

end quiet

end Export
end MeshSharding
