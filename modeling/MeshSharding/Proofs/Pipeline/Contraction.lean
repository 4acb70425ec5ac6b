import MeshSharding.Proofs.Pipeline.Concurrence
import MeshSharding.Proofs.Pipeline.Operands

/-! Contraction. A factor that no result has is expected to keep the axes that the operand gives it,
so a resharding leaves them as they are. Two operands that are contracted along such a factor have
the same axes for it where propagation has made them so, and only there. -/
namespace MeshSharding

open AxisList Program

namespace Export

variable {p q : Program} {o x : Operation} {r : Rule} {i j operand v w v' w' value value' f : Nat}
  {m m' : Mesh} {y z y' z' : FactorSharding} {mapping : Mapping} {s s' : TensorSharding}

/-- Both operands have shardings over one mesh, which give the factor equivalent axes. -/
def Aligned (p : Program) (r : Rule) (i v j w f : Nat) : Prop :=
  ∃ m y z, Gives p r i v f m y ∧ Gives p r j w f m z ∧ equivalent m y.axes z.axes = true

theorem Gives.unique (h : Gives p r operand value f m y) (h' : Gives p r operand value f m' z) :
    m = m' ∧ y = z := by
  obtain ⟨s, mapping, tensor, hs, hm, hmapping, htensor, hy⟩ := h
  obtain ⟨_, _, _, hs', hm', hmapping', htensor', hz⟩ := h'
  cases hs.symm.trans hs'
  cases hm.symm.trans hm'
  cases hmapping.symm.trans hmapping'
  cases htensor.symm.trans htensor'
  exact ⟨rfl, Option.some.inj (hy.symm.trans hz)⟩

/-- Operands stay aligned if what they give the factor stays the same. -/
theorem Aligned.congr (h : Aligned p r i v j w f) (hv : Gives p r i v f m y)
    (hv' : Gives q r i v' f m y') (hy : (Portion.ofFactor y).Same m (.ofFactor y'))
    (hw : Gives p r j w f m' z) (hw' : Gives q r j w' f m' z')
    (hz : (Portion.ofFactor z).Same m' (.ofFactor z')) : Aligned q r i v' j w' f := by
  obtain ⟨n, a, b, ha, hb, hab⟩ := h
  obtain ⟨rfl, rfl⟩ := ha.unique hv
  obtain ⟨rfl, rfl⟩ := hb.unique hw
  exact ⟨n, y', z', hv', hw', decide_eq_true ((hy.1.symm.trans (of_decide_eq_true hab)).trans hz.1)⟩

end Export

namespace Pipeline

open Export

variable {l : Pipeline} {p imported propagated q : Program} {provenance : Provenance}
  {o : Operation} {r : Rule} {m n : Mesh} {projection : Projection} {i j v w f : Nat}
  {y z : FactorSharding}

/-- The projection of the operation has what its operands give factors. -/
theorem Carries.axesOf_eq (h : Carries l q o r m projection) (hv : o.operands[i]? = some v)
    (hg : Gives q r i v f n y) : n = m ∧ FactorStep.axesOf projection ⟨.operand, i⟩ f = y.axes := by
  obtain ⟨s, mapping, tensor, hs, hn, hmapping, htensor, hy⟩ := hg
  obtain ⟨name, hm, hname⟩ := h.mesh
  have hmem : some s ∈ o.operands.map q.sharding? ++ o.results.map q.sharding? :=
    List.mem_append_left _ (List.mem_map.2 ⟨v, List.mem_of_getElem? hv, hs⟩)
  rw [(Propagator.commonMesh_eq_some hname).2 s hmem] at hn
  cases hm.symm.trans hn
  have htensor' : projection.tensor? ⟨.operand, i⟩ = some tensor :=
    (Projection.projectAll_eq_ok (ofShardings_eq_ok h.projects).1).2
      ⟨mapping, hmapping, by rw [List.getElem?_map, hv, Option.map_some, hs]; exact htensor⟩
  rw [FactorStep.axesOf, Projection.factor?, htensor', Option.bind_some, hy]
  exact ⟨rfl, rfl⟩

/-- In the program that propagation hands on, operands that concur on a factor are aligned. -/
theorem Carries.aligned (h : Carries l propagated o r m projection)
    (himport : Import.Imports l.catalogue p imported)
    (hpropagate : l.propagateStage imported = .ok (propagated, provenance))
    (ho : o ∈ propagated.operations) (hf : r.factors[f]?.any FactorStep.flows = true)
    (hc : (l.factorStep m).concur r projection f [⟨.operand, i⟩, ⟨.operand, j⟩] = true)
    (hv : o.operands[i]? = some v) (hw : o.operands[j]? = some w)
    (hy : ∃ m y, Gives propagated r i v f m y) (hz : ∃ m z, Gives propagated r j w f m z) :
    Aligned propagated r i v j w f := by
  obtain ⟨axes, haxes⟩ := h.exists_axes himport hpropagate ho hf hc
  obtain ⟨_, y, hy⟩ := hy
  obtain ⟨_, z, hz⟩ := hz
  obtain ⟨rfl, hleft⟩ := h.axesOf_eq hv hy
  obtain ⟨rfl, hright⟩ := h.axesOf_eq hw hz
  rw [List.forall_mem_cons, List.forall_mem_singleton, hleft, hright] at haxes
  exact ⟨_, y, z, hy, hz, decide_eq_true (haxes.1.trans haxes.2.symm)⟩

/-- Both operands of a product are contracted along the last factor. -/
def productRule : Rule :=
  ⟨[⟨4, .passThrough, false⟩, ⟨4, .passThrough, false⟩, ⟨8, .reduction, false⟩],
    [⟨[[0], [2]]⟩, ⟨[[2], [1]]⟩], [⟨[[0], [1]]⟩], false⟩

/-- A closed sharding over two dimensions. -/
def overTwo (first second : List AxisRef) : TensorSharding :=
  .ofDims "mesh" [.ofAxes first true, .ofAxes second true]

def product (right result : Option TensorSharding) : Program :=
  .single (.grid 2 2 Nat.two_pos Nat.two_pos)
    [([4, 8], some (overTwo [] [.full "x"])), ([8, 4], right)] "stablehlo.dot_general" productRule
    [4, 4] result

end Pipeline
end MeshSharding
