import MeshSharding.Proofs.Pipeline.Idempotence
import MeshSharding.Proofs.Propagation.Concurrence

/-! Concurrence behind propagation. An operation that propagates in both directions, and all of
whose shardings are over one mesh, leaves tensors alike that concur. -/
namespace MeshSharding

open Program

namespace Admission

/-- What is written back has the links of the program and the signatures of its operations. -/
theorem consistent_store {p : Program} {t : ShardingTable} (hp : p.Consistent) (ht : t.Sound p) :
    (store p t).Consistent where
  linked := by
    refine hp.linked.congr (List.ext_getElem? fun i => ?_) rfl
    simp only [store, List.getElem?_map, List.getElem?_mapIdx, Option.map_map]
    refine congrArg (p.values[i]?.map ·) (funext fun v => ?_)
    dsimp only [Function.comp_apply]
    split <;> rfl
  operands_lt o ho v hv := (length_store p t).symm ▸ hp.operands_lt o ho v hv
  values := checkValue_store hp.values ht
  rules o ho r hr := by
    rw [← hp.rules o ho r hr]
    exact congrArg r.verify (signatureOf_congr (fun v _ => Export.shapeOf_store p t v)
      fun v _ => Export.shapeOf_store p t v)

end Admission

namespace Pipeline

variable {l : Pipeline} {p imported propagated : Program} {provenance : Provenance} {o : Operation}
  {r : Rule} {m : Mesh} {projection : Projection} {k : Nat}

theorem consistent_of_propagate (himport : Import.Imports l.catalogue p imported)
    (hpropagate : l.propagateStage imported = .ok (propagated, provenance)) :
    propagated.operations = imported.operations ∧ propagated.Consistent := by
  have hconsistent := himport.consistent
  obtain ⟨heq, hsound, -⟩ := Admission.settled_of_propagate
    (g := ⟨imported, l.options, l.policy⟩) hconsistent.linked hconsistent.rules hconsistent.values
    hpropagate
  generalize propagated.table = t at *
  subst heq
  exact ⟨rfl, Admission.consistent_store hconsistent hsound⟩

/-- The operation has a rule by which it propagates in both directions, and its shardings are over
one mesh. The projection is that of its shardings. -/
structure Carries (l : Pipeline) (q : Program) (o : Operation) (r : Rule) (m : Mesh)
    (projection : Projection) : Prop where
  rule : o.rule = some r
  direction : Propagator.lastDirection l.options l.heuristics o = .both
  mesh : ∃ name, q.mesh name = .ok m ∧ Propagator.commonMesh
    (o.operands.map q.sharding? ++ o.results.map q.sharding?) = some name
  unit : m.NoUnitAxes
  projects : Projection.ofShardings m r (o.operands.map q.sharding?) (o.results.map q.sharding?)
    = .ok projection

/-- The step by which operations over the mesh propagate. -/
def factorStep (l : Pipeline) (m : Mesh) : FactorStep :=
  ⟨m, l.options.strategy, l.policy, l.options.conservative⟩

/-- In the program that propagation hands on, tensors that concur on a factor have the same axes for
it. -/
theorem Carries.exists_axes (h : Carries l propagated o r m projection)
    (himport : Import.Imports l.catalogue p imported)
    (hpropagate : l.propagateStage imported = .ok (propagated, provenance))
    (ho : o ∈ propagated.operations) (hk : r.factors[k]?.any FactorStep.flows = true)
    {ts : List TensorRef} (hc : (l.factorStep m).concur r projection k ts = true) :
    ∃ axes, ∀ t ∈ ts, AxisList.mergeAdjacent m (FactorStep.axesOf projection t k) = axes := by
  have hconsistent := himport.consistent
  obtain ⟨heq, hsound, -, hsettled⟩ := Admission.settled_of_propagate
    (g := ⟨imported, l.options, l.policy⟩) hconsistent.linked hconsistent.rules hconsistent.values
    hpropagate
  have hmem : o ∈ imported.operations := by
    rw [heq] at ho
    exact ho
  have hget : propagated.table.get = propagated.sharding? := funext fun v => get_table ..
  obtain ⟨name, hm, hname⟩ := h.mesh
  have hm : imported.mesh name = .ok m := by
    rw [heq] at hm
    exact hm
  have hp := h.projects
  rw [← hget] at hname hp
  have hrefused : Propagator.Refused ⟨imported, l.options, l.policy⟩ o r .both
      propagated.table := by
    have := hsettled o hmem r h.rule
    rw [h.direction] at this
    exact this nofun
  have hverify := hconsistent.rules o hmem r h.rule
  exact (hrefused.saturated hsound hverify hm h.unit hname hp k).exists_axes
    (Propagator.lengthens_ofShardings hsound hverify hm hname hp).proper hk hc

end Pipeline
end MeshSharding
