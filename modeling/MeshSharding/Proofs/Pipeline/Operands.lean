import MeshSharding.Proofs.Pipeline.Idempotence

/-! Operands of exported operations. Where rules are kept and collectives are inserted, an operation
that export leaves with a rule is one of the propagated program, and each of its operands has, up to
closing, the sharding that was there or the one that is expected of it. -/
namespace MeshSharding

open AxisList Program

namespace Export

variable {options : Options} {p q : Program} {o x : Operation} {r : Rule}

/-- The value, which is the operand of that number of an operation with the rule, has a sharding
over the mesh, and that gives the factor this. -/
def Gives (p : Program) (r : Rule) (operand value f : Nat) (m : Mesh) (x : FactorSharding) : Prop :=
  ∃ s mapping tensor, p.sharding? value = some s ∧ p.mesh s.meshName = .ok m ∧
    r.operands[operand]? = some mapping ∧
    TensorFactors.project m r mapping (some s) = .ok tensor ∧ tensor.factor? f = some x

/-- Up to closing, the value has the sharding of the operand, for which no collective is inserted,
or the one that is expected of it. -/
def Turns (p q : Program) (o : Operation) (r : Rule) (operand value value' : Nat) : Prop :=
  ((q.sharding? value').map TensorSharding.closedLike
      = (p.sharding? value).map TensorSharding.closedLike ∧ Rests p o r operand value) ∨
    ∃ expected reference, Expects p o r operand value expected reference ∧
      ¬ Skips p value expected ∧
      (q.sharding? value').map TensorSharding.closedLike = some expected.closedLike

/-- The operation `x` of `q` is the operation `o` of `p` with operands that it turns into. -/
structure Continues (p q : Program) (r : Rule) (o x : Operation) : Prop where
  mesh : q.mesh = p.mesh
  rule : o.rule = some r
  eq : x = { o with operands := x.operands }
  turns : ∀ (j v' : Nat), x.operands[j]? = some v' →
    ∃ v, o.operands[j]? = some v ∧ Turns p q o r j v v'
  results : ∀ v ∈ o.results, (q.sharding? v).map TensorSharding.closedLike
    = (p.sharding? v).map TensorSharding.closedLike

/-- Closing is all that export does to shardings once collectives are inserted. -/
theorem sharding?_finish (options : Options) (p : Program) (v : Nat) :
    ((finish options p).sharding? v).map TensorSharding.closedLike
      = (p.sharding? v).map TensorSharding.closedLike := by
  have hfinish : (finish options p).sharding? v = if options.closesShardings
      then (p.sharding? v).map TensorSharding.closedLike else p.sharding? v :=
    sharding?_closeValues ..
  rw [hfinish]
  split
  · rw [Option.map_map]
    exact congrArg (p.sharding? v |>.map ·)
      (funext fun s => TensorSharding.closedLike_closedLike s)
  · rfl

theorem mesh_finish (options : Options) (p : Program) : (finish options p).mesh = p.mesh :=
  closeValues_mesh ..

theorem operations_finish (hkeep : options.keepRules = true) (p : Program) :
    (finish options p).operations = p.operations := by
  have hdrop : dropRule options = id := funext fun o => if_pos hkeep
  rw [finish, closeValues_operations, hdrop, List.map_id]

variable {g : Propagator} {d : Operation → Direction} {reshards : List InsertedReshard}

theorem Exportable.reshards_insertReshards (h : Exportable g d)
    (hinserts : options.insertsCollectives = true)
    (hinsert : insertReshards options g.program = .ok (q, reshards)) : Reshards g.program q := by
  refine Export.reshards_insertReshards h.fits h.operands_lt h.produced (fun o ho r j v hr hv => ?_)
    (fun _ _ _ _ _ _ _ => hinserts) hinsert
  rcases (h.place ho hr hv).expectation_spec with ⟨hnone, -⟩ | ⟨_, _, _, -, hsome⟩
  · exact ⟨_, hnone⟩
  · exact ⟨_, hsome⟩

/-- Every operation that is exported with a rule continues one of the program. -/
theorem exists_continues (h : Exportable g d) (hinserts : options.insertsCollectives = true)
    (hkeep : options.keepRules = true) (hp : withoutGroups p = g.program)
    (hexport : exportProgram options p = .ok (q, reshards)) (hx : x ∈ q.operations)
    (hr : x.rule = some r) : ∃ o ∈ g.program.operations, Continues g.program q r o x := by
  obtain ⟨s, hs, rfl⟩ := exportProgram_eq_ok hexport
  rw [hp] at hs
  have hreshards := h.reshards_insertReshards hinserts hs
  rw [operations_finish hkeep] at hx
  rcases hreshards.operations x hx with ⟨c, a, b, rfl⟩ | ⟨o, ho, hreuses⟩
  · cases hr
  · have hrule : o.rule = some r := by
      obtain ⟨_, rfl, -⟩ := hreuses
      exact hr
    obtain ⟨operands, rfl, hlength, hstands⟩ := hreuses
    have hmesh : (finish options s).mesh = g.program.mesh := by
      refine (mesh_finish ..).trans (funext fun name => ?_)
      exact congrArg (fun meshes => Program.mesh { s with meshes := meshes } name) hreshards.meshes
    refine ⟨o, ho, hmesh, hrule, rfl, fun j v' hv' => ?_, fun v hv => ?_⟩
    · obtain ⟨v, hv⟩ : ∃ v, o.operands[j]? = some v :=
        ⟨_, List.getElem?_eq_getElem (hlength ▸ (List.getElem?_eq_some_iff.1 hv').1)⟩
      obtain ⟨w, hw, hstand⟩ := hstands j v hv
      cases hw.symm.trans hv'
      refine ⟨v, hv, ?_⟩
      rw [Turns, sharding?_finish]
      rcases hstand with ⟨rfl, hrests⟩ | ⟨r', expected, reference, hr', he, hskips, -, hsharding⟩
      · refine .inl ⟨?_, hrests r hrule⟩
        rw [hreshards.shardings _ (h.operands_lt o ho _ (List.mem_of_getElem? hv))]
      · cases hrule.symm.trans hr'
        refine .inr ⟨expected, reference, ⟨ho, hrule, hv, he⟩, hskips, ?_⟩
        rw [hsharding]
        rfl
    · rw [sharding?_finish, hreshards.shardings v (h.results_lt o ho v hv)]

end Export

/-- Collectives are inserted, and rules are kept. -/
def Pipeline.keeping : Pipeline := ofOptions { Options.default with keepRules := true }

end MeshSharding
