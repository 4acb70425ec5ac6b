import MeshSharding.Program.InPlace
import MeshSharding.Proofs.Program.Order

/-! Calls in place do what the operations on programs as values do. All that can fail comes before
the first change, so that a call that fails leaves the program as it was. -/
namespace MeshSharding

open Program

/-- The answer and the program behind it, where only a result changes the program `p`. -/
def settled {α : Type} (p : Program) : Except Error (Program × α) → Except Error α × Program
  | .ok (q, a) => (.ok a, q)
  | .error e => (.error e, p)

namespace Edit

variable {α β : Type} {p q : Program}

theorem run_bind_of_ok {x : Edit α} {f : α → Edit β} {a : α} (h : x.run.run p = (.ok a, q)) :
    (x >>= f).run.run p = (f a).run.run q := by
  simp only [ExceptT.run_bind, StateT.run_bind, h]
  rfl

theorem run_bind_of_error {x : Edit α} {f : α → Edit β} {e : Error}
    (h : x.run.run p = (.error e, q)) : (x >>= f).run.run p = (.error e, q) := by
  simp only [ExceptT.run_bind, StateT.run_bind, h]
  rfl

theorem run_lookup (f : Program → Except Error α) (p : Program) :
    (lookup f).run.run p = (f p, p) := by
  have hget : (get : Edit Program).run.run p = (.ok p, p) := rfl
  rw [lookup, run_bind_of_ok hget]
  cases f p <;> rfl

theorem run_checkValues (ids : List Nat) (p : Program) :
    (checkValues ids).run.run p = (p.checkValues ids, p) := by
  induction ids with
  | nil => rfl
  | cons id rest ih =>
    have hcheck : p.checkValues (id :: rest)
        = (p.value id).bind fun _ => p.checkValues rest := by
      unfold Program.checkValues Program.value
      rw [List.find?_cons]
      by_cases hid : id < p.values.length
      · rw [List.getElem?_eq_getElem hid, decide_eq_false (by omega)]
        rfl
      · rw [List.getElem?_eq_none (by omega), decide_eq_true (by omega)]
        rfl
    have hfirst := run_lookup (fun p => p.value id) p
    rw [hcheck]
    cases hv : p.value id with
    | error e =>
      rw [hv] at hfirst
      exact run_bind_of_error (run_bind_of_error hfirst)
    | ok v =>
      rw [hv] at hfirst
      have hseen : (do let _ ← lookup fun p => p.value id : Edit Unit).run.run p = (.ok (), p) :=
        run_bind_of_ok hfirst
      exact (run_bind_of_ok hseen).trans ih

theorem run_pushValue (v : Value) (p : Program) : (pushValue v).run.run p =
    (.ok p.values.length, { p with values := p.values ++ [v] }) := by
  have hlength : (p.values ++ [v]).length - 1 = p.values.length := by
    rw [List.length_append, List.length_singleton, Nat.add_sub_cancel]
  exact Prod.ext (congrArg Except.ok hlength) rfl

theorem run_pushValues (producer : Option Nat) (shapes : List Shape) (p : Program) :
    (shapes.mapM fun shape => pushValue ⟨shape, none, producer⟩).run.run p =
      (.ok (List.range' p.values.length shapes.length),
        { p with values := p.values ++ shapes.map fun shape => ⟨shape, none, producer⟩ }) := by
  induction shapes generalizing p with
  | nil =>
    rw [List.map_nil, List.append_nil]
    rfl
  | cons shape rest ih =>
    rw [List.mapM_cons, run_bind_of_ok (run_pushValue ..), run_bind_of_ok (ih _), List.length_cons,
      List.range'_succ, List.map_cons, List.length_append, List.length_singleton,
      List.append_assoc, List.singleton_append]
    rfl

theorem run_addArgument (shape : Shape) (s : Option TensorSharding) (p : Program) :
    (addArgument shape s).run.run p =
      (.ok (p.addArgument shape s).2, (p.addArgument shape s).1) := by
  rw [addArgument, run_bind_of_ok (run_pushValue ..)]
  rfl

theorem run_addOperation (name : String) (operands : List Nat) (shapes : List Shape)
    (attributes : Attributes) (p : Program) :
    (addOperation name operands shapes attributes).run.run p =
      settled p (p.addOperation name operands shapes attributes) := by
  have hcheck := run_checkValues operands p
  unfold addOperation Program.addOperation
  cases hvalues : p.checkValues operands with
  | error e =>
    rw [hvalues] at hcheck
    exact run_bind_of_error hcheck
  | ok _ =>
    rw [hvalues] at hcheck
    have hget : (get : Edit Program).run.run p = (.ok p, p) := rfl
    rw [run_bind_of_ok hcheck, run_bind_of_ok hget, run_bind_of_ok (run_pushValues ..)]
    rfl

/-- A change behind a check, which has no answer of its own. -/
theorem run_checked {check : Edit α} {r : Except Error α} (change : Program → Program)
    (h : check.run.run p = (r, p)) :
    (do (do let _ ← check; modify change : Edit Unit); return [] : Edit (List Nat)).run.run p =
      settled p (r.map fun _ => (change p, [])) := by
  cases r with
  | error e => exact run_bind_of_error (run_bind_of_error h)
  | ok a =>
    have hchange : (do let _ ← check; modify change : Edit Unit).run.run p = (.ok (), change p) :=
      run_bind_of_ok h
    exact run_bind_of_ok hchange

end Edit

namespace Call

/-- What a call makes of a program, with the values that are new. -/
def result : Call → Program → Except Error (Program × List Nat)
  | addMesh name m, p => .ok (p.addMesh name m, [])
  | addArgument shape s, p => .ok ((p.addArgument shape s).1, [(p.addArgument shape s).2])
  | addOperation name operands shapes attributes, p =>
    p.addOperation name operands shapes attributes
  | setOutputs ids, p => do return (← p.setOutputs ids, [])
  | addGroup ids, p => do return (← p.addGroup ids, [])
  | setSharding id s, p => do return (← p.setSharding id s, [])
  | setRule id rule, p => do return (← p.setRule id rule, [])

theorem run_eq (c : Call) (p : Program) : c.run p = settled p (c.result p) := by
  cases c with
  | addMesh name m => rfl
  | addArgument shape s =>
    exact Edit.run_bind_of_ok (Edit.run_addArgument shape s p)
  | addOperation name operands shapes attributes =>
    exact Edit.run_addOperation name operands shapes attributes p
  | setOutputs ids =>
    refine (Edit.run_checked _ (Edit.run_checkValues ids p)).trans ?_
    simp only [result, Program.setOutputs]
    cases p.checkValues ids <;> rfl
  | addGroup ids =>
    refine (Edit.run_checked _ (Edit.run_checkValues ids p)).trans ?_
    simp only [result, Program.addGroup]
    cases p.checkValues ids <;> rfl
  | setSharding id s =>
    refine (Edit.run_checked _ (Edit.run_lookup (fun p => p.value id) p)).trans ?_
    simp only [result, Program.setSharding, Program.value]
    by_cases hid : id < p.values.length
    · rw [List.getElem?_eq_getElem hid, if_pos hid]
      rfl
    · rw [List.getElem?_eq_none (Nat.not_lt.1 hid), if_neg hid]
      rfl
  | setRule id rule =>
    refine (Edit.run_checked _ (Edit.run_lookup (fun p => p.operation id) p)).trans ?_
    simp only [result, Program.setRule, Program.operation]
    by_cases hid : id < p.operations.length
    · rw [List.getElem?_eq_getElem hid, if_pos hid]
      rfl
    · rw [List.getElem?_eq_none (Nat.not_lt.1 hid), if_neg hid]
      rfl

/-- A call that fails leaves the program as it was. -/
theorem run_of_error {c : Call} {p : Program} {e : Error} (h : (c.run p).1 = .error e) :
    (c.run p).2 = p := by
  rw [run_eq] at h ⊢
  cases hr : c.result p with
  | error e => rfl
  | ok x =>
    rw [hr] at h
    cases h

end Call
end MeshSharding
