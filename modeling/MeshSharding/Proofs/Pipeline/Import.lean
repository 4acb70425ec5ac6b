import MeshSharding.Pipeline.Import
import MeshSharding.Proofs.Program.Order
import MeshSharding.Proofs.Sharding.Validity

/-! Import. The shardings of a program that is accepted are valid over its meshes; up to rules,
operations of groups and their results the program is left as it was. -/
namespace MeshSharding

open Program

/-- The operations of a program without those of sharding groups, and without rules. -/
def Program.flow (p : Program) : List Operation :=
  (p.operations.filter fun o => o.name ≠ Catalogue.groupOperation).map Operation.withoutRule

theorem Program.flow_eq (p : Program) : p.flow =
    (p.operations.map Operation.withoutRule).filter fun o =>
      o.name ≠ Catalogue.groupOperation := by
  rw [flow, List.filter_map]
  rfl

namespace Import

variable {p q : Program} {c : Catalogue}

section check

theorem eq_ok_of_forM {α : Type} {f : α → Except Error Unit} {l : List α}
    (h : l.forM f = .ok ()) : ∀ a ∈ l, f a = .ok () := by
  induction l with
  | nil => simp
  | cons a l ih =>
    obtain ⟨_, ha, h⟩ := bind_eq_ok_iff.1 h
    intro b hb
    rcases List.mem_cons.1 hb with rfl | hb
    · exact ha
    · exact ih h b hb

theorem forM_eq_ok {α : Type} {f : α → Except Error Unit} {l : List α}
    (h : ∀ a ∈ l, f a = .ok ()) : l.forM f = .ok () := by
  induction l with
  | nil => rfl
  | cons a l ih =>
    rw [List.forall_mem_cons] at h
    exact bind_eq_ok_iff.2 ⟨(), h.1, ih h.2⟩

theorem checkValue_eq_ok_iff {v : Value} : checkValue p v = .ok () ↔
    ∀ s, v.sharding = some s →
      ∃ m, p.mesh s.meshName = .ok m ∧ s.validate m v.shape = .ok () := by
  unfold checkValue
  cases v.sharding with
  | none => simp
  | some s => simp [bind_eq_ok_iff]

/-- The shardings of a program that import accepts are valid over their meshes. -/
theorem valid_of_checkValue (h : p.values.forM (checkValue p) = .ok ()) {id : Nat}
    {s : TensorSharding} (hs : p.sharding? id = some s) {m : Mesh}
    (hm : p.mesh s.meshName = .ok m) : s.Valid m := by
  obtain ⟨v, hv, hs⟩ := Option.bind_eq_some_iff.1 hs
  obtain ⟨m', hm', hvalid⟩ :=
    checkValue_eq_ok_iff.1 (eq_ok_of_forM h v (List.mem_of_getElem? hv)) s hs
  cases hm.symm.trans hm'
  exact (TensorSharding.validate_eq_ok_iff.1 hvalid).2

end check

section operations

theorem withoutRule_of_ruled {o o' : Operation} (h : ruled c p o = .ok o') :
    o'.withoutRule = o.withoutRule := by
  unfold ruled at h
  split at h
  · cases h; rfl
  · split at h
    · obtain ⟨_, _, h⟩ := bind_eq_ok_iff.1 h
      cases h; rfl
    · obtain ⟨_, _, h⟩ := bind_eq_ok_iff.1 h
      cases h; rfl

theorem withoutRule_of_mapM_ruled {l l' : List Operation} (h : l.mapM (ruled c p) = .ok l') :
    l'.map Operation.withoutRule = l.map Operation.withoutRule := by
  induction l generalizing l' with
  | nil =>
    rw [List.mapM_nil] at h
    cases h; rfl
  | cons o rest ih =>
    rw [List.mapM_cons] at h
    obtain ⟨o', ho, h⟩ := bind_eq_ok_iff.1 h
    obtain ⟨rest', hrest, h⟩ := bind_eq_ok_iff.1 h
    cases h
    rw [List.map_cons, List.map_cons, withoutRule_of_ruled ho, ih hrest]

/-- Up to operations of groups and new values without a sharding, nothing has changed. -/
structure Extends (p q : Program) : Prop where
  flow : q.flow = p.flow
  arguments : q.arguments = p.arguments
  values : p.values.length ≤ q.values.length
  meshes : q.meshes = p.meshes
  shardings : ∀ v, q.sharding? v = p.sharding? v

theorem Extends.refl (p : Program) : Extends p p :=
  ⟨rfl, rfl, Nat.le_refl _, rfl, fun _ => rfl⟩

theorem extends_addGroupOperation {group : List Nat} (h : addGroupOperation p group = .ok q) :
    Extends p q := by
  cases group with
  | nil =>
    cases h
    exact .refl _
  | cons first rest =>
    rw [addGroupOperation] at h
    obtain ⟨_, _, h⟩ := bind_eq_ok_iff.1 h
    obtain ⟨_, _, h⟩ := bind_eq_ok_iff.1 h
    obtain ⟨_, _, h⟩ := bind_eq_ok_iff.1 h
    obtain ⟨⟨q', results⟩, hadd, h⟩ := bind_eq_ok_iff.1 h
    obtain ⟨_, _, rfl⟩ := addOperation_eq hadd
    obtain rfl := setRule_eq h
    refine ⟨?_, rfl, by simp [putRule], rfl, fun v => ?_⟩
    · rw [flow_eq, putRule_operations, flow_eq, List.map_append, List.filter_append]
      simp [Operation.withoutRule, Catalogue.groupOperation]
    · simp only [sharding?, putRule, List.getElem?_append]
      split
      · rfl
      · rename_i hlt
        rw [List.getElem?_eq_none (Nat.not_lt.1 hlt), List.getElem?_map, Option.bind_map]
        simp

theorem Extends.trans {r : Program} (h : Extends p q) (h' : Extends q r) : Extends p r :=
  ⟨h'.flow.trans h.flow, h'.arguments.trans h.arguments, Nat.le_trans h.values h'.values,
    h'.meshes.trans h.meshes, fun v => (h'.shardings v).trans (h.shardings v)⟩

theorem extends_foldlM {groups : List (List Nat)} (h : groups.foldlM addGroupOperation p = .ok q) :
    Extends p q :=
  foldlM_keeps h (.refl p) fun _ _ _ _ hp hgroup => hp.trans (extends_addGroupOperation hgroup)

/-- The steps of an import that succeeds. -/
theorem steps_of_importProgram (h : importProgram c p = .ok q) :
    ∃ operations r, p.values.forM (checkValue p) = .ok () ∧
      p.operations.mapM (ruled c p) = .ok operations ∧
      p.groups.foldlM addGroupOperation { p with operations := operations } = .ok r ∧
      q = { r with groups := [] } := by
  rw [importProgram] at h
  obtain ⟨_, hvalues, h⟩ := bind_eq_ok_iff.1 h
  obtain ⟨operations, hruled, h⟩ := bind_eq_ok_iff.1 h
  obtain ⟨r, hgroups, h⟩ := bind_eq_ok_iff.1 h
  cases h
  exact ⟨operations, r, hvalues, hruled, hgroups, rfl⟩

/-- Import gives rules to operations and adds those of the groups. -/
theorem extends_importProgram (h : importProgram c p = .ok q) : Extends p q := by
  obtain ⟨operations, p', -, hruled, hgroups, rfl⟩ := steps_of_importProgram h
  have hextends := extends_foldlM hgroups
  refine ⟨hextends.flow.trans ?_, hextends.arguments, hextends.values, hextends.meshes,
    hextends.shardings⟩
  rw [flow_eq, flow_eq, withoutRule_of_mapM_ruled hruled]

end operations

end Import
end MeshSharding
