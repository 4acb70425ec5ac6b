import MeshSharding.Proofs.Pipeline.Import
import MeshSharding.Proofs.Program.Linked
import MeshSharding.Proofs.Propagation.Decision
import MeshSharding.Proofs.Rule.Identity

/-! Import once more. The program that import hands on is consistent, and a program whose operations
have rules that verify, or get them from the catalogue, is imported with these rules. -/
namespace MeshSharding

namespace Program

variable {p q : Program} {o : Operation}

/-- Values and operations are linked, shardings are valid, and rules verify. -/
structure Consistent (p : Program) : Prop where
  linked : p.Linked
  operands_lt : ∀ o ∈ p.operations, ∀ v ∈ o.operands, v < p.values.length
  values : ∀ v ∈ p.values, Import.checkValue p v = .ok ()
  rules : p.RulesVerify

theorem signatureOf_congr (hoperands : ∀ v ∈ o.operands, q.shapeOf v = p.shapeOf v)
    (hresults : ∀ v ∈ o.results, q.shapeOf v = p.shapeOf v) :
    q.signatureOf o = p.signatureOf o := by
  rw [signatureOf, signatureOf, List.map_congr_left hoperands, List.map_congr_left hresults]

theorem signatureOf_of_shapes (hshapes : ∀ v < p.values.length, q.shapeOf v = p.shapeOf v)
    (hoperands : ∀ v ∈ o.operands, v < p.values.length)
    (hresults : ∀ v ∈ o.results, v < p.values.length) : q.signatureOf o = p.signatureOf o :=
  signatureOf_congr (fun v hv => hshapes v (hoperands v hv)) fun v hv => hshapes v (hresults v hv)

/-- The operation has a rule, which verifies for the shapes of its values. -/
def Ruled (p : Program) (o : Operation) : Prop :=
  ∃ r, o.rule = some r ∧ r.verify (p.signatureOf o) = .ok ()

/-- The program has the values of the operation. -/
structure Has (p : Program) (o : Operation) : Prop where
  operands_lt : ∀ v ∈ o.operands, v < p.values.length
  results_lt : ∀ v ∈ o.results, v < p.values.length

theorem WellFormed.has (h : p.WellFormed) (ho : o ∈ p.operations) : p.Has o :=
  ⟨h.operands_lt ho, h.results_lt o ho⟩

/-- Values that are added leave the shapes of an operation as they are. -/
theorem Has.signatureOf_eq (h : p.Has o)
    (hshapes : ∀ v < p.values.length, q.shapeOf v = p.shapeOf v) :
    q.signatureOf o = p.signatureOf o :=
  signatureOf_of_shapes hshapes h.operands_lt h.results_lt

end Program

namespace Import

open Program

variable {p q : Program} {c : Catalogue}

section groups

theorem modify_append_singleton {α : Type} (l : List α) (a : α) (f : α → α) :
    (l ++ [a]).modify l.length f = l ++ [f a] := by
  induction l with
  | nil => rfl
  | cons b l ih => simp [ih]

theorem checkShapes_eq_ok {first : Nat} {members : List Nat}
    (h : checkShapes p first members = .ok ()) : ∀ v ∈ members, p.shapeOf v = p.shapeOf first := by
  induction members with
  | nil => nofun
  | cons member rest ih =>
    obtain ⟨v, hv, h⟩ := bind_eq_ok_iff.1 h
    split at h
    · cases h
    · rename_i hshape
      refine List.forall_mem_cons.2 ⟨?_, ih h⟩
      rw [shapeOf, value_eq_ok_iff.1 hv]
      exact not_not.1 hshape

/-- The operation of a group of values of one shape, with the next value as its result. -/
def groupOf (p : Program) (group : List Nat) (shape : Shape) : Operation :=
  ⟨Catalogue.groupOperation, group, [p.values.length], [],
    some (Rule.identity shape group.length 1)⟩

theorem verify_groupOf {group : List Nat} {shape : Shape}
    (hgroup : ∀ v ∈ group, q.shapeOf v = shape) (hresult : q.shapeOf p.values.length = shape) :
    (Rule.identity shape group.length 1).verify (q.signatureOf (groupOf p group shape))
      = .ok () := by
  have hsignature : q.signatureOf (groupOf p group shape)
      = ⟨List.replicate group.length shape, List.replicate 1 shape⟩ := by
    rw [signatureOf, groupOf, List.map_congr_left hgroup, List.map_const', List.map_singleton,
      hresult]
    rfl
  rw [hsignature, Rule.verify_identity _ _ _ (Nat.succ_pos _)]

/-- The members of a group have one shape, and its operation is added at the end. -/
theorem addGroupOperation_eq_ok {first : Nat} {rest : List Nat}
    (h : addGroupOperation p (first :: rest) = .ok q) :
    (∀ v ∈ first :: rest, v < p.values.length ∧ p.shapeOf v = p.shapeOf first) ∧
      (p.Linked → q.Linked) ∧
      q = { p with
        values := p.values ++ [⟨p.shapeOf first, none, some p.operations.length⟩]
        operations := p.operations ++ [groupOf p (first :: rest) (p.shapeOf first)] } := by
  rw [addGroupOperation] at h
  obtain ⟨v, hv, h⟩ := bind_eq_ok_iff.1 h
  have hshape : p.shapeOf first = v.shape := by rw [shapeOf, value_eq_ok_iff.1 hv]; rfl
  obtain ⟨_, hshapes, h⟩ := bind_eq_ok_iff.1 h
  obtain ⟨_, -, h⟩ := bind_eq_ok_iff.1 h
  obtain ⟨⟨q', results⟩, hadd, h⟩ := bind_eq_ok_iff.1 h
  obtain rfl := setRule_eq h
  refine ⟨fun w hw => ⟨(addOperation_eq hadd).1 w hw, checkShapes_eq_ok hshapes w hw⟩,
    fun hp => (hp.addOperation hadd).congr rfl (putRule_operations ..), ?_⟩
  obtain ⟨-, rfl, rfl⟩ := addOperation_eq hadd
  rw [hshape, putRule, groupOf]
  simp [modify_append_singleton]

/-- What a group adds to the program. -/
structure Adds (p q : Program) : Prop where
  meshes : q.meshes = p.meshes
  length : p.values.length ≤ q.values.length
  shapes : ∀ v < p.values.length, q.shapeOf v = p.shapeOf v
  operations : ∀ o ∈ q.operations, o.name = Catalogue.groupOperation ∨ o ∈ p.operations

theorem Adds.refl (p : Program) : Adds p p :=
  ⟨rfl, Nat.le_refl _, fun _ _ => rfl, fun _ ho => .inr ho⟩

theorem Adds.trans {r : Program} (h : Adds p q) (h' : Adds q r) : Adds p r where
  meshes := h'.meshes.trans h.meshes
  length := Nat.le_trans h.length h'.length
  shapes v hv := (h'.shapes v (Nat.lt_of_lt_of_le hv h.length)).trans (h.shapes v hv)
  operations o ho := (h'.operations o ho).elim .inl (h.operations o)

/-- The operations that groups add have rules that verify, and the others stay. -/
structure AddsRuled (p q : Program) : Prop extends Adds p q where
  kept : ∀ o ∈ p.operations, o ∈ q.operations
  added : ∀ o ∈ q.operations, o ∈ p.operations ∨ q.Has o ∧ q.Ruled o

theorem AddsRuled.refl (p : Program) : AddsRuled p p :=
  ⟨.refl p, fun _ ho => ho, fun _ ho => .inl ho⟩

theorem AddsRuled.trans {r : Program} (h : AddsRuled p q) (h' : AddsRuled q r) :
    AddsRuled p r where
  toAdds := h.toAdds.trans h'.toAdds
  kept o ho := h'.kept o (h.kept o ho)
  added o ho := by
    rcases h'.added o ho with ho | hnew
    · refine (h.added o ho).imp_right fun ⟨hhas, rule, hrule, hverify⟩ => ⟨?_, rule, hrule, ?_⟩
      · exact ⟨fun v hv => Nat.lt_of_lt_of_le (hhas.operands_lt v hv) h'.length,
          fun v hv => Nat.lt_of_lt_of_le (hhas.results_lt v hv) h'.length⟩
      · rwa [hhas.signatureOf_eq h'.shapes]
    · exact .inr hnew

/-- The operation of a group has the identity rule of the shape of the members. -/
theorem addsRuled_addGroupOperation {group : List Nat} (h : addGroupOperation p group = .ok q) :
    AddsRuled p q := by
  cases group with
  | nil =>
    cases h
    exact .refl _
  | cons first rest =>
    obtain ⟨hmembers, -, rfl⟩ := addGroupOperation_eq_ok h
    generalize hnew : (⟨p.shapeOf first, none, some p.operations.length⟩ : Value) = new
    have hshapes : ∀ v < p.values.length,
        ({ p with values := p.values ++ [new] } : Program).shapeOf v = p.shapeOf v := fun v hv =>
      shapeOf_append_of_lt hv [new]
    have hresult : ({ p with values := p.values ++ [new] } : Program).shapeOf p.values.length
        = p.shapeOf first := by simp [shapeOf, ← hnew]
    have hlength : (p.values ++ [new]).length = p.values.length + 1 := List.length_append
    refine ⟨⟨rfl, by simp, hshapes, fun o ho => ?_⟩, fun o ho => List.mem_append_left _ ho,
      fun o ho => (List.mem_append.1 ho).imp_right fun ho => ?_⟩
    · refine (List.mem_append.1 ho).symm.imp_left fun ho => ?_
      rw [List.mem_singleton.1 ho, groupOf]
    · obtain rfl := List.mem_singleton.1 ho
      refine ⟨⟨fun v hv => ?_, fun v hv => ?_⟩, _, rfl, verify_groupOf
        (fun v hv => (hshapes v (hmembers v hv).1).trans (hmembers v hv).2) hresult⟩
      · have hlt := (hmembers v hv).1
        simp only [hlength]
        omega
      · obtain rfl := List.mem_singleton.1 hv
        simp only [hlength]
        omega

theorem addsRuled_foldlM {groups : List (List Nat)}
    (h : groups.foldlM addGroupOperation p = .ok q) : AddsRuled p q :=
  foldlM_keeps h (.refl p) fun _ _ _ _ hp hgroup => hp.trans (addsRuled_addGroupOperation hgroup)

theorem consistent_addGroupOperation {group : List Nat} (hp : p.Consistent)
    (h : addGroupOperation p group = .ok q) : q.Consistent ∧ Adds p q := by
  have hadds := addsRuled_addGroupOperation h
  refine ⟨?_, hadds.toAdds⟩
  cases group with
  | nil =>
    cases h
    exact hp
  | cons first rest =>
    obtain ⟨-, hlinked, hq⟩ := addGroupOperation_eq_ok h
    refine ⟨hlinked hp.linked, fun o ho v hv => ?_, fun v hv => ?_, fun o ho r hr => ?_⟩
    · rcases hadds.added o ho with ho | ⟨hhas, -⟩
      · exact Nat.lt_of_lt_of_le (hp.operands_lt o ho v hv) hadds.length
      · exact hhas.operands_lt v hv
    · rw [hq] at hv ⊢
      rcases List.mem_append.1 hv with hv | hv
      · exact hp.values v hv
      · obtain rfl := List.mem_singleton.1 hv
        rfl
    · rcases hadds.added o ho with ho | ⟨-, r', hr', hverify⟩
      · rw [← hp.rules o ho r hr]
        exact congrArg r.verify (signatureOf_of_shapes hadds.shapes (hp.operands_lt o ho)
          (hp.linked.results_lt ho))
      · cases hr.symm.trans hr'
        exact hverify

theorem consistent_foldlM {groups : List (List Nat)} (hp : p.Consistent)
    (h : groups.foldlM addGroupOperation p = .ok q) : q.Consistent ∧ Adds p q := by
  refine foldlM_keeps (motive := fun q => q.Consistent ∧ Adds p q) h ⟨hp, .refl p⟩
    fun group _ r r' hr hgroup => ?_
  obtain ⟨hr', hadds⟩ := consistent_addGroupOperation hr.1 hgroup
  exact ⟨hr', hr.2.trans hadds⟩

end groups

section rules

variable {o o' : Operation} {r : Rule}

theorem verify_of_ruleFor {sig : Signature} {attrs : Attributes} {name : String}
    (h : c.ruleFor name attrs sig = .ok r) : r.verify sig = .ok () := by
  obtain ⟨rule, -, h⟩ := bind_eq_ok_iff.1 h
  obtain ⟨_, hverify, h⟩ := bind_eq_ok_iff.1 h
  cases h
  exact hverify

/-- Collectives are left alone, and other operations have a rule that verifies. -/
theorem ruled_eq_ok (h : ruled c p o = .ok o') :
    (Collective.isOperation o.name = true ∧ o' = o) ∨
      Collective.isOperation o.name = false ∧ ∃ r, o' = { o with rule := some r } ∧
        r.verify (p.signatureOf o) = .ok () ∧
        (o.rule = some r ∨ c.ruleFor o.name o.attributes (p.signatureOf o) = .ok r) := by
  unfold ruled at h
  split at h
  · rename_i hname
    cases h
    exact .inl ⟨hname, rfl⟩
  · rename_i hname
    refine .inr ⟨by simpa using hname, ?_⟩
    split at h
    · rename_i r hr
      obtain ⟨_, hverify, h⟩ := bind_eq_ok_iff.1 h
      cases h
      refine ⟨r, ?_, hverify, .inl hr⟩
      rw [← hr]
    · obtain ⟨r, hr, h⟩ := bind_eq_ok_iff.1 h
      cases h
      exact ⟨r, rfl, verify_of_ruleFor hr, .inr hr⟩

theorem mem_of_mapM {α β : Type} {f : α → Except Error β} {l : List α} {l' : List β}
    (h : l.mapM f = .ok l') : ∀ b ∈ l', ∃ a ∈ l, f a = .ok b := by
  induction l generalizing l' with
  | nil =>
    rw [List.mapM_nil] at h
    cases h
    nofun
  | cons a rest ih =>
    rw [List.mapM_cons] at h
    obtain ⟨b, hb, h⟩ := bind_eq_ok_iff.1 h
    obtain ⟨rest', hrest, h⟩ := bind_eq_ok_iff.1 h
    cases h
    refine List.forall_mem_cons.2 ⟨⟨a, List.mem_cons_self, hb⟩, fun b' hb' => ?_⟩
    obtain ⟨a', ha', heq⟩ := ih hrest b' hb'
    exact ⟨a', List.mem_cons_of_mem _ ha', heq⟩

theorem exists_of_mapM {α β : Type} {f : α → Except Error β} {l : List α} {l' : List β}
    (h : l.mapM f = .ok l') : ∀ a ∈ l, ∃ b ∈ l', f a = .ok b := by
  induction l generalizing l' with
  | nil => nofun
  | cons a rest ih =>
    rw [List.mapM_cons] at h
    obtain ⟨b, hb, h⟩ := bind_eq_ok_iff.1 h
    obtain ⟨rest', hrest, h⟩ := bind_eq_ok_iff.1 h
    cases h
    refine List.forall_mem_cons.2 ⟨⟨b, List.mem_cons_self, hb⟩, fun a' ha' => ?_⟩
    obtain ⟨b', hb', heq⟩ := ih hrest a' ha'
    exact ⟨b', List.mem_cons_of_mem _ hb', heq⟩

/-- What import makes of a program. -/
structure Imports (c : Catalogue) (p q : Program) : Prop where
  consistent : q.Consistent
  groups : q.groups = []
  shapes : ∀ v < p.values.length, q.shapeOf v = p.shapeOf v
  operations : ∀ o ∈ q.operations, o.name = Catalogue.groupOperation ∨
    ∃ o₀ ∈ p.operations, ruled c p o₀ = .ok o

/-- Import hands on a consistent program, if the rules of collectives, which it does not look at,
verify. -/
theorem imports_importProgram (hlinked : p.Linked)
    (hoperands : ∀ o ∈ p.operations, ∀ v ∈ o.operands, v < p.values.length)
    (hrules : ∀ o ∈ p.operations, Collective.isOperation o.name = true → ∀ r, o.rule = some r →
      r.verify (p.signatureOf o) = .ok ())
    (h : importProgram c p = .ok q) : Imports c p q := by
  obtain ⟨operations, q', hvalues, hruled, hgroups, rfl⟩ := steps_of_importProgram h
  have hmem := mem_of_mapM hruled
  have hsame : ∀ o ∈ operations, ∃ o₀ ∈ p.operations, ruled c p o₀ = .ok o ∧
      o.operands = o₀.operands ∧ o.results = o₀.results := fun o ho => by
    obtain ⟨o₀, ho₀, heq⟩ := hmem o ho
    have hoperands : o.withoutRule.operands = o₀.withoutRule.operands :=
      congrArg _ (withoutRule_of_ruled heq)
    have hresults : o.withoutRule.results = o₀.withoutRule.results :=
      congrArg _ (withoutRule_of_ruled heq)
    exact ⟨o₀, ho₀, heq, hoperands, hresults⟩
  have hstart : ({ p with operations := operations } : Program).Consistent := by
    refine ⟨hlinked.congr rfl (withoutRule_of_mapM_ruled hruled), fun o ho v hv => ?_,
      eq_ok_of_forM hvalues, fun o ho r hr => ?_⟩
    · obtain ⟨o₀, ho₀, -, heq, -⟩ := hsame o ho
      exact hoperands o₀ ho₀ v (heq ▸ hv)
    · obtain ⟨o₀, ho₀, heq, -, -⟩ := hsame o ho
      rcases ruled_eq_ok heq with ⟨hname, rfl⟩ | ⟨-, r', rfl, hverify, -⟩
      · exact hrules _ ho₀ hname r hr
      · cases hr
        exact hverify
  obtain ⟨hconsistent, hadds⟩ := consistent_foldlM hstart hgroups
  refine ⟨⟨hconsistent.linked.congr rfl rfl, hconsistent.operands_lt, hconsistent.values,
    hconsistent.rules⟩, rfl, hadds.shapes, fun o ho =>
    (hadds.operations o ho).imp_right fun ho => ?_⟩
  obtain ⟨o₀, ho₀, heq, -, -⟩ := hsame o ho
  exact ⟨o₀, ho₀, heq⟩

/-- A program without groups is imported operation by operation. -/
theorem importProgram_eq_ok {f g : Operation → Operation} {l : List Operation}
    (hvalues : ∀ v ∈ p.values, checkValue p v = .ok ()) (hgroups : p.groups = [])
    (hl : p.operations = l.map f) (hruled : ∀ o ∈ l, ruled c p (f o) = .ok (g o)) :
    importProgram c p = .ok { p with operations := l.map g } := by
  rw [importProgram, forM_eq_ok hvalues, hl, mapM_map_eq_ok hruled]
  simp only [bind, Except.bind, hgroups, List.foldlM_nil, pure, Except.pure]

end rules
end Import
end MeshSharding
