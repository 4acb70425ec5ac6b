import MeshSharding.Proofs.Pipeline.Reimport

/-! The rules of an imported program. All operations but the collectives have rules that verify,
whether these are their own, from the catalogue, or made for a sharding group. The rule of a
collective is handed on as it is. -/
namespace MeshSharding
namespace Import

open Program

variable {p q : Program} {c : Catalogue}

/-- An operation of an imported program has a rule that verifies, or it is a collective and is as
it was. Collectives are not dropped. -/
theorem ruled_or_collective_of_importProgram (hp : p.WellFormed) (h : importProgram c p = .ok q) :
    (∀ o ∈ q.operations, q.Ruled o ∨ Collective.isOperation o.name = true ∧ o ∈ p.operations ∧
      q.signatureOf o = p.signatureOf o) ∧
      ∀ o ∈ p.operations, Collective.isOperation o.name = true → o ∈ q.operations ∧
        q.signatureOf o = p.signatureOf o := by
  obtain ⟨operations, q', -, hruled, hgroups, rfl⟩ := steps_of_importProgram h
  have hadds := addsRuled_foldlM hgroups
  have hsignature : ∀ o ∈ p.operations, q'.signatureOf o = p.signatureOf o := fun o ho =>
    (hp.has ho).signatureOf_eq hadds.shapes
  refine ⟨fun o ho => ?_, fun o ho hname => ⟨hadds.kept o ?_, hsignature o ho⟩⟩
  · rcases hadds.added o ho with ho | ⟨-, hnew⟩
    · obtain ⟨o₀, ho₀, heq⟩ := mem_of_mapM hruled o ho
      rcases ruled_eq_ok heq with ⟨hname, rfl⟩ | ⟨-, r, rfl, hverify, -⟩
      · exact .inr ⟨hname, ho₀, hsignature _ ho₀⟩
      · refine .inl ⟨r, rfl, ?_⟩
        rw [← hverify]
        exact congrArg r.verify (hsignature o₀ ho₀)
    · exact .inl hnew
  · obtain ⟨o', ho', heq⟩ := exists_of_mapM hruled o ho
    rcases ruled_eq_ok heq with ⟨-, rfl⟩ | ⟨hname', -⟩
    · exact ho'
    · rw [hname] at hname'
      cases hname'

/-- All operations of an imported program but the collectives have rules that verify. All its rules
verify exactly if those of the collectives did before. -/
theorem rulesVerify_importProgram_iff (c : Catalogue) (p q : Program) (hp : p.WellFormed)
    (h : importProgram c p = .ok q) :
    (∀ o ∈ q.operations, Collective.isOperation o.name = false → q.Ruled o) ∧
      (q.RulesVerify ↔ ∀ o ∈ p.operations, Collective.isOperation o.name = true →
        ∀ r, o.rule = some r → r.verify (p.signatureOf o) = .ok ()) := by
  obtain ⟨hnew, hold⟩ := ruled_or_collective_of_importProgram hp h
  refine ⟨fun o ho hname => ?_, fun hverify o ho hname r hr => ?_, fun hverify o ho r hr => ?_⟩
  · rcases hnew o ho with hruled | ⟨hname', -⟩
    · exact hruled
    · rw [hname] at hname'
      cases hname'
  · obtain ⟨hmem, hsignature⟩ := hold o ho hname
    rw [← hsignature]
    exact hverify o hmem r hr
  · rcases hnew o ho with ⟨r', hr', hverify'⟩ | ⟨hname, hmem, hsignature⟩
    · cases hr.symm.trans hr'
      exact hverify'
    · rw [hsignature]
      exact hverify o hmem hname r hr

/-- A gather with a rule of its own. -/
def gathering (r : Rule) : Program :=
  .single (.grid 2 2 Nat.two_pos Nat.two_pos) [([4], none)] "sdy.all_gather" r [2] none

/-- The rule of the gather keeps the dimensions apart. -/
theorem rulesVerify_importProgram_iff_gathering :
    let p := gathering (.ofSizes [4, 2] [⟨[[0]]⟩] [⟨[[1]]⟩])
    p.WellFormed ∧ ∃ q, importProgram .builtin p = .ok q ∧
      (∀ o ∈ q.operations, Collective.isOperation o.name = false → q.Ruled o) ∧
      (q.RulesVerify ↔ ∀ o ∈ p.operations, Collective.isOperation o.name = true →
        ∀ r, o.rule = some r → r.verify (p.signatureOf o) = .ok ()) :=
  ⟨wellFormed_single .., _, rfl,
    rulesVerify_importProgram_iff .builtin _ _ (wellFormed_single ..) rfl⟩

/-- The rule of the gather has a factor twice in the operand, and import hands it on. -/
theorem not_rulesVerify_importProgram :
    let r := Rule.ofSizes [2] [⟨[[0, 0]]⟩] [⟨[[0]]⟩]
    (gathering r).WellFormed ∧ ∃ q, importProgram .builtin (gathering r) = .ok q ∧
      q.operations = (gathering r).operations ∧
      r.verify ⟨[[4]], [[2]]⟩ = .error (.malformedRule (.repeatedFactor ⟨.operand, 0⟩ 0)) ∧
      ¬ q.RulesVerify := by
  refine ⟨wellFormed_single .., _, rfl, rfl, rfl, fun h => ?_⟩
  have hverify := h _ List.mem_cons_self _ rfl
  cases hverify

end Import
end MeshSharding
