import MeshSharding.Proofs.Pipeline.Collectives
import MeshSharding.Proofs.Pipeline.Insertion
import MeshSharding.Proofs.Propagation.Closing

/-! Expectations of a program whose operands have been resharded and whose shardings have been
closed. An operand that needed no collective needs none again, and one that has been resharded to
what was expected is what is expected. -/
namespace MeshSharding

open AxisList Program

namespace TensorSharding

variable {m : Mesh} {s s' t t' : TensorSharding}

@[simp] theorem closedLike_meshName (s : TensorSharding) : s.closedLike.meshName = s.meshName := rfl

@[simp] theorem closedLike_usedAxes (s : TensorSharding) : s.closedLike.usedAxes = s.usedAxes := by
  rw [usedAxes, closedLike_dimAxes]
  rfl

theorem meshName_eq_of_closedLike (h : s'.closedLike = s.closedLike) :
    s'.meshName = s.meshName := by
  rw [← closedLike_meshName s', h, closedLike_meshName]

theorem rank_eq_of_closedLike (h : s'.closedLike = s.closedLike) : s'.rank = s.rank := by
  rw [← closedLike_rank s', h, closedLike_rank]

theorem valid_of_closedLike (h : s'.closedLike = s.closedLike) (hs : s.Valid m) : s'.Valid m := by
  rw [Valid, ← closedLike_usedAxes, h, closedLike_usedAxes]
  exact hs

theorem hasSameLayout_congr (hs : s'.closedLike = s.closedLike)
    (ht : t'.closedLike = t.closedLike) : s'.hasSameLayout t' m = s.hasSameLayout t m := by
  rw [← hasSameLayout_closedLike, hs, ht, hasSameLayout_closedLike]

theorem axes_eq_of_closedLike (h : s'.closedLike = s.closedLike) {i : Nat} {d d' : DimSharding}
    (hd : s.dims[i]? = some d) (hd' : s'.dims[i]? = some d') : d'.axes = d.axes := by
  have heq := closedLike_dims s' i
  rw [h, closedLike_dims, hd, hd'] at heq
  exact (congrArg DimSharding.axes (Option.some.inj heq)).symm

theorem validate_closedLike (s : TensorSharding) (m : Mesh) (shape : Shape) :
    s.closedLike.validate m shape = .ok () ↔ s.validate m shape = .ok () := by
  rw [validate_eq_ok_iff, validate_eq_ok_iff, closedLike_rank, Valid, closedLike_usedAxes, Valid]

end TensorSharding

namespace Resharding

open TensorSharding

variable {m : Mesh} {s s' t t' : TensorSharding}

theorem collectives_eq_nil_congr {p : Plan} {atoms : List (List AxisRef)}
    (h : collectives p s atoms m = []) (s' : TensorSharding) : collectives p s' atoms m = [] := by
  simp only [collectives, List.append_eq_nil_iff, alignment] at h ⊢
  refine ⟨⟨?_, h.1.2⟩, h.2⟩
  split
  · rfl
  · rename_i hmoved
    have := h.1.1
    rw [if_neg hmoved] at this
    cases this

/-- Whether collectives are needed does not depend on what is closed. -/
theorem reshard_closedLike_eq_nil :
    reshard s.closedLike t.closedLike m = .ok [] ↔ reshard s t m = .ok [] := by
  have haxes : ∀ s : TensorSharding, s.closedLike.dims.map (·.axes) = s.dims.map (·.axes) :=
    fun s => by simp [closedLike, mapDims]
  have hsynthesize : synthesize s.closedLike t.closedLike m = .ok [] ↔
      synthesize s t m = .ok [] := by
    simp only [synthesize, haxes, closedLike_rank, bind_eq_ok_iff, pure, Except.pure,
      Except.ok.injEq]
    exact exists_congr fun _ => and_congr_right fun _ =>
      ⟨fun h => collectives_eq_nil_congr h _, fun h => collectives_eq_nil_congr h _⟩
  unfold reshard
  rw [hasSameLayout_closedLike, closedLike_rank, closedLike_rank, closedLike_shardedSizes,
    closedLike_shardedSizes]
  change (if s.meshName ≠ t.meshName then _ else _) = _ ↔ _
  split
  · simp
  · split
    · simp
    · change (if !equivalent m s.unreduced t.unreduced then _ else _) = _ ↔ _
      split
      · simp
      · split
        · simp
        · split
          · simp
          · exact hsynthesize

theorem reshard_eq_nil_congr (hs : s'.closedLike = s.closedLike) (ht : t'.closedLike = t.closedLike)
    (h : reshard s t m = .ok []) : reshard s' t' m = .ok [] := by
  rw [← reshard_closedLike_eq_nil, hs, ht]
  exact reshard_closedLike_eq_nil.2 h

end Resharding

namespace Export

variable {p q : Program} {o o' : Operation} {r : Rule} {operand value value' reference : Nat}

section outcome

/-- What makes sure that the expectation of an operand can be computed. -/
structure Place (p : Program) (o : Operation) (r : Rule) (operand value : Nat) : Prop where
  values : ∀ v ∈ p.values, Import.checkValue p v = .ok ()
  verifies : r.verify (p.signatureOf o) = .ok ()
  operand_eq : o.operands[operand]? = some value
  value_lt : value < p.values.length
  results_lt : ∀ v ∈ o.results, v < p.values.length

namespace Comparison

/-- What is expected with the given dimensions, if it is another layout and valid. -/
def outcome (c : Comparison p o r operand value reference) (dims : List DimSharding) :
    Option (TensorSharding × Nat) :=
  let expected := { c.source with dims := dims }
  if expected.hasSameLayout c.source c.mesh then none
  else
    match expected.validate c.mesh (p.shapeOf value) with
    | .ok _ => some (expected, reference)
    | .error _ => none

variable {c : Comparison p o r operand value reference}

theorem exists_expectedAxes (hc : c.Checked) (fs : List Nat)
    (hfs : ∀ f ∈ fs, f ∈ c.operandMapping.dims.flatten) :
    ∃ axes, expectedAxes r c.resultMapping c.operandFactors c.resultFactors fs = .ok axes := by
  induction fs with
  | nil => exact ⟨_, rfl⟩
  | cons f rest ih =>
    rw [List.forall_mem_cons] at hfs
    obtain ⟨more, hmore⟩ := ih hfs.2
    have hlt : f < r.factors.length := hc.operandMaps.known f hfs.1
    rw [expectedAxes, List.getElem?_eq_getElem hlt]
    simp only [hmore, bind, Except.bind]
    split
    · exact ⟨_, rfl⟩
    · split <;> exact ⟨_, rfl⟩

theorem exists_expectedDims (hc : c.Checked) (dim : Nat) (ds : List DimSharding) :
    ∃ dims, expectedDims c.mesh r c.operandMapping c.resultMapping c.operandFactors
      c.resultFactors dim ds = .ok dims := by
  induction ds generalizing dim with
  | nil => exact ⟨_, rfl⟩
  | cons d ds ih =>
    obtain ⟨rest, hrest⟩ := ih (dim + 1)
    obtain ⟨axes, haxes⟩ := exists_expectedAxes hc (c.operandMapping.factorsOf dim)
      fun f hf => by
        rw [Mapping.factorsOf, List.getD_eq_getElem?_getD] at hf
        cases hi : c.operandMapping.dims[dim]? with
        | none => rw [hi] at hf; cases hf
        | some fs =>
          rw [hi] at hf
          exact List.mem_flatten.2 ⟨fs, List.mem_of_getElem? hi, hf⟩
    exact ⟨_, by simp only [expectedDims, haxes, hrest, bind, Except.bind]; rfl⟩

end Comparison

theorem exists_referenceResult (meshName : String) {results : List Nat}
    (h : ∀ v ∈ results, v < p.values.length) (index : Nat) :
    ∃ found, referenceResult p meshName index results = .ok found := by
  induction results generalizing index with
  | nil => exact ⟨_, rfl⟩
  | cons v rest ih =>
    rw [List.forall_mem_cons] at h
    rw [referenceResult, value_eq_ok_iff.2 (List.getElem?_eq_getElem h.1)]
    simp only [bind, Except.bind]
    split
    · split
      · exact ⟨_, rfl⟩
      · exact ih h.2 _
    · exact ih h.2 _

namespace Place

theorem checked (h : Place p o r operand value) (c : Comparison p o r operand value reference) :
    c.Checked := c.checked (Import.forM_eq_ok h.values) h.verifies h.operand_eq

/-- An operand with a sharding is compared with the reference result over its mesh. -/
theorem nonempty_comparison (h : Place p o r operand value) {index : Nat}
    {s t : TensorSharding} (hs : p.sharding? value = some s)
    (hfound : referenceResult p s.meshName 0 o.results = .ok (some (index, reference, t))) :
    Nonempty (Comparison p o r operand value reference) := by
  obtain ⟨v, hget, hsharding⟩ := Option.bind_eq_some_iff.1 hs
  obtain ⟨-, hindex, ht, hname⟩ := referenceResult_eq hfound
  obtain ⟨m, hm, hvalid⟩ := Import.checkValue_eq_ok_iff.1
    (h.values v (List.mem_of_getElem? hget)) s hsharding
  have hsvalid := (TensorSharding.validate_eq_ok_iff.1 hvalid).2
  have htvalid := Import.valid_of_checkValue (Import.forM_eq_ok h.values) ht (hname ▸ hm)
  obtain ⟨before, hbefore⟩ := exists_ofShardings h.verifies hsvalid htvalid o.operands.length
    operand o.results.length index
  obtain ⟨hos, hrs⟩ := ofShardings_eq_ok hbefore
  have hoperands : r.operands.length = o.operands.length := by
    simpa [Rule.mappings, Signature.shapes, signatureOf] using
      (Rule.maps_of_verify h.verifies .operand).1
  have hresults : r.results.length = o.results.length := by
    simpa [Rule.mappings, Signature.shapes, signatureOf] using
      (Rule.maps_of_verify h.verifies .result).1
  have hoperand : operand < r.operands.length :=
    hoperands ▸ (List.getElem?_eq_some_iff.1 h.operand_eq).1
  have hresult : index < r.results.length :=
    hresults ▸ (List.getElem?_eq_some_iff.1 hindex).1
  exact ⟨⟨m, s, t, index, r.operands[operand], r.results[index], before, _, _, hm, hs, hfound,
    List.getElem?_eq_getElem hoperand, List.getElem?_eq_getElem hresult, hbefore,
    List.getElem?_eq_getElem ((Projection.length_projectAll hos).symm ▸ hoperand),
    List.getElem?_eq_getElem ((Projection.length_projectAll hrs).symm ▸ hresult)⟩⟩

theorem expectation_eq_outcome (h : Place p o r operand value)
    (c : Comparison p o r operand value reference) {dims : List DimSharding}
    (hdims : expectedDims c.mesh r c.operandMapping c.resultMapping c.operandFactors
      c.resultFactors 0 c.source.dims = .ok dims) :
    expectation p o r operand value = .ok (c.outcome dims) := by
  obtain ⟨v, hget⟩ : ∃ v, p.values[value]? = some v := ⟨_, List.getElem?_eq_getElem h.value_lt⟩
  have hs : v.sharding = some c.source := by
    have hs := c.source_eq
    rwa [sharding?, hget] at hs
  have hshape : p.shapeOf value = v.shape := by rw [shapeOf, hget]; rfl
  have hexpected : expectedSharding c.mesh o r operand c.index c.source c.target
      = .ok (some { c.source with dims := dims }) := by
    rw [expectedSharding, c.operandMapping_eq, c.resultMapping_eq]
    simp only [c.before_eq, bind, Except.bind, c.operandFactors_eq, c.resultFactors_eq, hdims]
    rfl
  have hknown : ¬ (r.operands.length ≤ operand ∨ r.results.length ≤ c.index) := by
    have hoperand := (List.getElem?_eq_some_iff.1 c.operandMapping_eq).1
    have hresult := (List.getElem?_eq_some_iff.1 c.resultMapping_eq).1
    omega
  rw [expectation, value_eq_ok_iff.2 hget]
  simp only [bind, Except.bind, hs, c.target_eq, c.mesh_eq, hexpected]
  rw [if_neg hknown, Comparison.outcome, hshape]
  dsimp only
  split
  · rfl
  · cases TensorSharding.validate { c.source with dims := dims } c.mesh v.shape <;> rfl

theorem expectation_eq_none_of_missing (h : Place p o r operand value)
    (hmissing : ∀ s, p.sharding? value = some s →
      referenceResult p s.meshName 0 o.results = .ok none) :
    expectation p o r operand value = .ok none := by
  obtain ⟨v, hget⟩ : ∃ v, p.values[value]? = some v := ⟨_, List.getElem?_eq_getElem h.value_lt⟩
  have hsharding : p.sharding? value = v.sharding := by rw [sharding?, hget]; rfl
  rw [expectation, value_eq_ok_iff.2 hget]
  cases hs : v.sharding with
  | none =>
    simp only [bind, Except.bind, hs]
    rfl
  | some s =>
    have hnone := hmissing s (hsharding.trans hs)
    simp only [bind, Except.bind, hs, hnone]
    rfl

/-- Without a reference result nothing is expected, and with one the expectation is the outcome of
comparing it with the operand. -/
theorem expectation_spec (h : Place p o r operand value) :
    (expectation p o r operand value = .ok none ∧ ∀ s, p.sharding? value = some s →
      referenceResult p s.meshName 0 o.results = .ok none) ∨
    ∃ (reference : Nat) (c : Comparison p o r operand value reference) (dims : List DimSharding),
      expectedDims c.mesh r c.operandMapping c.resultMapping c.operandFactors c.resultFactors 0
        c.source.dims = .ok dims ∧
      expectation p o r operand value = .ok (c.outcome dims) := by
  by_cases hmissing : ∀ s, p.sharding? value = some s →
      referenceResult p s.meshName 0 o.results = .ok none
  · exact .inl ⟨h.expectation_eq_none_of_missing hmissing, hmissing⟩
  · obtain ⟨s, hs⟩ := not_forall.1 hmissing
    rw [Classical.not_imp] at hs
    obtain ⟨found, hfound⟩ := exists_referenceResult s.meshName h.results_lt 0
    cases found with
    | none => exact absurd hfound hs.2
    | some found =>
      obtain ⟨index, reference, t⟩ := found
      obtain ⟨c⟩ := h.nonempty_comparison hs.1 hfound
      obtain ⟨dims, hdims⟩ := c.exists_expectedDims (h.checked c) 0 c.source.dims
      exact .inr ⟨reference, c, dims, hdims, h.expectation_eq_outcome c hdims⟩

/-- A sharding has the rank of its value. -/
theorem rank_eq (h : Place p o r operand value) {v : Nat} {s : TensorSharding}
    (hs : p.sharding? v = some s) : s.rank = (p.shapeOf v).length := by
  obtain ⟨x, hx, hs⟩ := Option.bind_eq_some_iff.1 hs
  obtain ⟨m, -, hvalid⟩ := Import.checkValue_eq_ok_iff.1 (h.values x (List.mem_of_getElem? hx)) s hs
  rw [shapeOf, hx]
  exact (TensorSharding.validate_eq_ok_iff.1 hvalid).1

end Place
end outcome

section mirrors

/-- Up to closing, the results of an operation in the program `q` have the shardings that those of
`o` have in `p`. -/
structure Mirrors (p q : Program) (o o' : Operation) : Prop where
  meshes : q.mesh = p.mesh
  results_eq : o'.results = o.results
  shardings : ∀ v ∈ o.results,
    (q.sharding? v).map TensorSharding.closedLike = (p.sharding? v).map TensorSharding.closedLike

/-- The reference result is the same up to closing. -/
theorem referenceResult_closedLike (meshName : String) {results : List Nat}
    (hp : ∀ v ∈ results, v < p.values.length) (hq : ∀ v ∈ results, v < q.values.length)
    (h : ∀ v ∈ results,
      (q.sharding? v).map TensorSharding.closedLike = (p.sharding? v).map TensorSharding.closedLike)
    (index : Nat) :
    (referenceResult q meshName index results).map
        (Option.map fun x => (x.1, x.2.1, x.2.2.closedLike))
      = (referenceResult p meshName index results).map
        (Option.map fun x => (x.1, x.2.1, x.2.2.closedLike)) := by
  induction results generalizing index with
  | nil => rfl
  | cons v rest ih =>
    rw [List.forall_mem_cons] at hp hq h
    have hget := List.getElem?_eq_getElem hp.1
    have hget' := List.getElem?_eq_getElem hq.1
    have hs := h.1
    rw [sharding?, sharding?, hget, hget', Option.bind_some, Option.bind_some] at hs
    have hrest := ih hp.2 hq.2 h.2 (index + 1)
    rw [referenceResult, referenceResult, value_eq_ok_iff.2 hget, value_eq_ok_iff.2 hget']
    simp only [bind, Except.bind]
    generalize p.values[v].sharding = s at hs
    generalize q.values[v].sharding = s' at hs
    cases s <;> cases s' <;> simp only [Option.map_none, Option.map_some, reduceCtorEq] at hs
    · exact hrest
    · rename_i s s'
      have hs := Option.some.inj hs
      dsimp only
      rw [TensorSharding.meshName_eq_of_closedLike hs]
      split
      · simp only [pure, Except.pure, Except.map, Option.map_some, hs]
      · exact hrest

namespace Comparison

variable {reference' : Nat} {c : Comparison p o r operand value reference}
  {c' : Comparison q o' r operand value' reference'}

/-- Both comparisons are with the same reference result, up to closing. -/
structure Mirrors (c : Comparison p o r operand value reference)
    (c' : Comparison q o' r operand value' reference') : Prop where
  reference_eq : reference' = reference
  mesh_eq : c'.mesh = c.mesh
  target_eq : c'.target.closedLike = c.target.closedLike
  operandMapping_eq : c'.operandMapping = c.operandMapping
  resultMapping_eq : c'.resultMapping = c.resultMapping

theorem mirrors_of_meshName (h : Export.Mirrors p q o o') (hp : Place p o r operand value)
    (hq : Place q o' r operand value') (c : Comparison p o r operand value reference)
    (c' : Comparison q o' r operand value' reference')
    (hname : c'.source.meshName = c.source.meshName) : c.Mirrors c' := by
  have hfound := referenceResult_closedLike c.source.meshName hp.results_lt
    (fun v hv => hq.results_lt v (h.results_eq ▸ hv)) h.shardings 0
  have htarget := c'.target_eq
  rw [hname, h.results_eq] at htarget
  rw [htarget, c.target_eq] at hfound
  simp only [Except.map, Option.map_some, Except.ok.injEq, Option.some.injEq, Prod.mk.injEq]
    at hfound
  obtain ⟨hindex, hreference, hclosed⟩ := hfound
  have hmesh := c'.mesh_eq
  rw [hname, h.meshes, c.mesh_eq] at hmesh
  have hmapping := c'.resultMapping_eq
  rw [hindex, c.resultMapping_eq] at hmapping
  exact ⟨hreference, (Except.ok.inj hmesh).symm, hclosed,
    Option.some.inj (c'.operandMapping_eq.symm.trans c.operandMapping_eq),
    (Option.some.inj hmapping).symm⟩

theorem want_eq (c : Comparison p o r operand value reference) (f : Nat) :
    c.want f = if needsReplication r f then ⟨[], []⟩
      else ((if c.resultMapping.has f then c.resultFactors.factor? f
        else c.operandFactors.factor? f).map Portion.ofFactor).getD ⟨[], []⟩ := by
  rw [want, factor?_eq]
  split
  · rfl
  · cases (if c.resultMapping.has f then c.resultFactors.factor? f
      else c.operandFactors.factor? f) <;> rfl

namespace Mirrors

/-- The reference result gives the factors the same portions. -/
theorem portion_result (h : c.Mirrors c') (hp : Place p o r operand value)
    (hq : Place q o' r operand value') (f : Nat) :
    (c'.resultFactors.factor? f).map Portion.ofFactor
      = (c.resultFactors.factor? f).map Portion.ofFactor := by
  have hc := hp.checked c
  have hc' := hq.checked c'
  obtain ⟨-, -, hsharding, -⟩ := referenceResult_eq c.target_eq
  have htarget := hc'.target
  have hproject := hc'.project_result
  rw [h.mesh_eq] at htarget hproject
  rw [h.resultMapping_eq] at hproject
  exact TensorFactors.portion_project_congr hc.target htarget hc.resultMaps.nodup
    (hc.resultMaps.rank.trans (hp.rank_eq hsharding).symm)
    (TensorSharding.rank_eq_of_closedLike h.target_eq) hc.project_result hproject
    fun i d d' _ hd hd' => TensorSharding.axes_eq_of_closedLike h.target_eq hd hd'

/-- What is meant for a factor does not change, unless it is what the operand gives it. -/
theorem want_eq (h : c.Mirrors c') (hp : Place p o r operand value)
    (hq : Place q o' r operand value') {f : Nat}
    (hf : needsReplication r f = true ∨ c.resultMapping.has f = true ∨
      (c'.operandFactors.factor? f).map Portion.ofFactor
        = (c.operandFactors.factor? f).map Portion.ofFactor) : c'.want f = c.want f := by
  rw [Comparison.want_eq, Comparison.want_eq, h.resultMapping_eq]
  split
  · rfl
  · rename_i hrep
    split
    · rw [h.portion_result hp hq]
    · rename_i hhas
      rw [(hf.resolve_left hrep).resolve_left hhas]

/-- An operand with the same axes is meant to have the same ones. -/
theorem want_eq_of_closedLike (h : c.Mirrors c') (hp : Place p o r operand value)
    (hq : Place q o' r operand value') (hsource : c'.source.closedLike = c.source.closedLike)
    (f : Nat) : c'.want f = c.want f := by
  have hc := hp.checked c
  have hc' := hq.checked c'
  refine h.want_eq hp hq (.inr (.inr ?_))
  have hvalid := hc'.source
  have hproject := hc'.project_operand
  rw [h.mesh_eq] at hvalid hproject
  rw [h.operandMapping_eq] at hproject
  exact TensorFactors.portion_project_congr hc.source hvalid hc.operandMaps.nodup
    (hc.operandMaps.rank.trans (hp.rank_eq c.source_eq).symm)
    (TensorSharding.rank_eq_of_closedLike hsource) hc.project_operand hproject
    fun i d d' _ hd hd' => TensorSharding.axes_eq_of_closedLike hsource hd hd'

end Mirrors

section dims

variable {dim : Nat} {ds dims : List DimSharding}

theorem length_expectedDims {m : Mesh} {om rm : Mapping} {x y : TensorFactors}
    (h : expectedDims m r om rm x y dim ds = .ok dims) : dims.length = ds.length := by
  induction ds generalizing dim dims with
  | nil => cases h; rfl
  | cons d ds ih =>
    obtain ⟨_, -, h⟩ := bind_eq_ok_iff.1 h
    obtain ⟨rest, hrest, h⟩ := bind_eq_ok_iff.1 h
    cases h
    rw [List.length_cons, ih hrest, List.length_cons]

/-- Up to closing, what is expected depends on what is meant for the factors. -/
theorem close_expectedDims (h : expectedDims c.mesh r c.operandMapping c.resultMapping
      c.operandFactors c.resultFactors dim ds = .ok dims) :
    dims.map DimSharding.close = (List.range ds.length).map fun i =>
      .ofAxes (c.joined (c.operandMapping.factorsOf (dim + i))) true := by
  refine List.ext_getElem (by simp [length_expectedDims h]) fun i hi _ => ?_
  rw [List.length_map] at hi
  have hd := List.getElem?_eq_getElem hi
  have haxes := expectedDims_eq h hd
  have hpriority := priority_expectedDims h _ (List.getElem_mem hi)
  simp only [List.getElem_map, List.getElem_range]
  rw [← haxes, DimSharding.close, DimSharding.ofAxes, hpriority]

end dims

/-- Up to closing, the outcome is the same for an operand with the same axes. -/
theorem outcome_closedLike (h : c.Mirrors c') (hp : Place p o r operand value)
    (hq : Place q o' r operand value') (hshape : q.shapeOf value' = p.shapeOf value)
    (hsource : c'.source.closedLike = c.source.closedLike) {dims dims' : List DimSharding}
    (hdims : expectedDims c.mesh r c.operandMapping c.resultMapping c.operandFactors
      c.resultFactors 0 c.source.dims = .ok dims)
    (hdims' : expectedDims c'.mesh r c'.operandMapping c'.resultMapping c'.operandFactors
      c'.resultFactors 0 c'.source.dims = .ok dims') :
    (c'.outcome dims').map (fun x => (x.1.closedLike, x.2))
      = (c.outcome dims).map fun x => (x.1.closedLike, x.2) := by
  have hwant : c'.want = c.want := funext (h.want_eq_of_closedLike hp hq hsource)
  have hjoined : c'.joined = c.joined := by
    funext fs
    rw [joined, joined, h.mesh_eq, hwant]
  have hclosed : ({ c'.source with dims := dims' } : TensorSharding).closedLike
      = ({ c.source with dims := dims } : TensorSharding).closedLike := by
    have hmap : dims'.map DimSharding.close = dims.map DimSharding.close := by
      rw [close_expectedDims hdims, close_expectedDims hdims', hjoined, h.operandMapping_eq]
      exact congrArg (fun n => (List.range n).map _) (TensorSharding.rank_eq_of_closedLike hsource)
    have hparts := hsource
    simp only [TensorSharding.closedLike_eq, TensorSharding.mapDims, TensorSharding.mk.injEq]
      at hparts ⊢
    exact ⟨hparts.1, hmap, hparts.2.2⟩
  rw [outcome, outcome, ← TensorSharding.hasSameLayout_closedLike, hclosed, hsource,
    TensorSharding.hasSameLayout_closedLike, h.mesh_eq, hshape]
  dsimp only
  split
  · rfl
  · have hvalid := TensorSharding.validate_closedLike { c'.source with dims := dims' } c.mesh
      (p.shapeOf value)
    rw [hclosed, TensorSharding.validate_closedLike] at hvalid
    cases hbefore : TensorSharding.validate { c.source with dims := dims } c.mesh
        (p.shapeOf value) with
    | ok _ =>
      rw [hvalid.1 hbefore]
      simp only [Option.map_some, hclosed, h.reference_eq]
    | error e =>
      cases hafter : TensorSharding.validate { c'.source with dims := dims' } c.mesh
          (p.shapeOf value) with
      | ok _ =>
        rw [hvalid.2 hafter] at hbefore
        cases hbefore
      | error e' => rfl

end Comparison

/-- An operand with the same axes is expected to have the same ones. -/
theorem expectation_closedLike (h : Mirrors p q o o') (hp : Place p o r operand value)
    (hq : Place q o' r operand value') (hshape : q.shapeOf value' = p.shapeOf value)
    (hvalue : (q.sharding? value').map TensorSharding.closedLike
      = (p.sharding? value).map TensorSharding.closedLike) :
    (expectation q o' r operand value').map (Option.map fun x => (x.1.closedLike, x.2))
      = (expectation p o r operand value).map (Option.map fun x => (x.1.closedLike, x.2)) := by
  have hsource : ∀ {s s'}, p.sharding? value = some s → q.sharding? value' = some s' →
      s'.closedLike = s.closedLike := by
    intro s s' hs hs'
    rw [hs, hs'] at hvalue
    exact Option.some.inj hvalue
  have hlookup : ∀ name, (referenceResult q name 0 o'.results).map
        (Option.map fun x => (x.1, x.2.1, x.2.2.closedLike))
      = (referenceResult p name 0 o.results).map
        (Option.map fun x => (x.1, x.2.1, x.2.2.closedLike)) := fun name => by
    rw [h.results_eq]
    exact referenceResult_closedLike _ hp.results_lt
      (fun v hv => hq.results_lt v (h.results_eq ▸ hv)) h.shardings 0
  rcases hp.expectation_spec with ⟨hnone, hmissing⟩ | ⟨reference, c, dims, hdims, hp'⟩
  · rcases hq.expectation_spec with ⟨hnone', -⟩ | ⟨reference', c', dims', -, -⟩
    · rw [hnone, hnone']
    · obtain ⟨s, hs, hclosed⟩ :=
        Option.map_eq_some_iff.1 (hvalue.symm.trans (congrArg _ c'.source_eq))
      have hfound := hlookup c'.source.meshName
      rw [c'.target_eq, TensorSharding.meshName_eq_of_closedLike hclosed.symm, hmissing s hs]
        at hfound
      cases hfound
  · rcases hq.expectation_spec with ⟨-, hmissing⟩ | ⟨reference', c', dims', hdims', hq'⟩
    · obtain ⟨s', hs', hclosed⟩ := Option.map_eq_some_iff.1 (hvalue.trans (congrArg _ c.source_eq))
      have hfound := hlookup c.source.meshName
      rw [c.target_eq, TensorSharding.meshName_eq_of_closedLike hclosed.symm, hmissing s' hs']
        at hfound
      cases hfound
    · have hclosed := hsource c.source_eq c'.source_eq
      have hmirrors := Comparison.mirrors_of_meshName h hp hq c c'
        (TensorSharding.meshName_eq_of_closedLike hclosed)
      rw [hp', hq']
      exact congrArg Except.ok
        (Comparison.outcome_closedLike hmirrors hp hq hshape hclosed hdims hdims')

theorem expectation_eq_none (h : Mirrors p q o o') (hp : Place p o r operand value)
    (hq : Place q o' r operand value') (hshape : q.shapeOf value' = p.shapeOf value)
    (hvalue : (q.sharding? value').map TensorSharding.closedLike
      = (p.sharding? value).map TensorSharding.closedLike)
    (hnone : expectation p o r operand value = .ok none) :
    expectation q o' r operand value' = .ok none := by
  have hsame := expectation_closedLike h hp hq hshape hvalue
  rw [hnone] at hsame
  cases hq' : expectation q o' r operand value' with
  | error e => rw [hq'] at hsame; cases hsame
  | ok x =>
    rw [hq'] at hsame
    cases x with
    | none => rfl
    | some x => cases hsame

/-- An operand that needs no collective needs none once shardings are closed. -/
theorem rests_closedLike (h : Mirrors p q o o') (hp : Place p o r operand value)
    (hq : Place q o' r operand value') (hshape : q.shapeOf value' = p.shapeOf value)
    (hvalue : (q.sharding? value').map TensorSharding.closedLike
      = (p.sharding? value).map TensorSharding.closedLike)
    (hrests : Rests p o r operand value) : Rests q o' r operand value' := by
  rcases hrests with hnone | ⟨expected, reference, hsome, s, m, hs, hm, hreshard⟩
  · exact .inl (expectation_eq_none h hp hq hshape hvalue hnone)
  · have hsame := expectation_closedLike h hp hq hshape hvalue
    rw [hsome] at hsame
    cases hq' : expectation q o' r operand value' with
    | error e => rw [hq'] at hsame; cases hsame
    | ok x =>
      rw [hq'] at hsame
      cases x with
      | none => exact .inl hq'
      | some x =>
        simp only [Except.map, Option.map_some, Except.ok.injEq, Option.some.injEq,
          Prod.mk.injEq] at hsame
        obtain ⟨s', hs', hclosed⟩ := Option.map_eq_some_iff.1 (hvalue.trans (congrArg _ hs))
        refine .inr ⟨x.1, x.2, hq', s', m, hs', ?_,
          Resharding.reshard_eq_nil_congr hclosed hsame.1 hreshard⟩
        rw [TensorSharding.meshName_eq_of_closedLike hsame.1, h.meshes, hm]

section reshard

/-- In each dimension, all factors of the operand have their axes from the reference result, or
what is expected for them fills them. -/
def Comparison.Recurs (c : Comparison p o r operand value reference) : Prop :=
  ∀ fs ∈ c.operandMapping.dims,
    (∀ f ∈ fs, Comparison.needsReplication r f = true ∨ c.resultMapping.has f = true) ∨
      Filled c.mesh r c.want fs

variable {reference' : Nat} {c : Comparison p o r operand value reference}
  {c' : Comparison q o' r operand value' reference'} {expected : TensorSharding}

namespace Comparison

/-- An operand that has been resharded gives its factors what a projection of the expectation gives
them. -/
theorem Mirrors.portion_operand (h : c.Mirrors c') (hp : Place p o r operand value)
    (hq : Place q o' r operand value')
    (hvalid : expected.validate c.mesh (p.shapeOf value) = .ok ())
    (hclosed : c'.source.closedLike = expected.closedLike) {z : TensorFactors}
    (hz : TensorFactors.project c.mesh r c.operandMapping (some expected) = .ok z) (f : Nat) :
    (c'.operandFactors.factor? f).map Portion.ofFactor = (z.factor? f).map Portion.ofFactor := by
  have hc := hp.checked c
  have hc' := hq.checked c'
  obtain ⟨hrank, hvalid⟩ := TensorSharding.validate_eq_ok_iff.1 hvalid
  have hvalid' := hc'.source
  have hproject := hc'.project_operand
  rw [h.mesh_eq] at hvalid' hproject
  rw [h.operandMapping_eq] at hproject
  exact TensorFactors.portion_project_congr hvalid hvalid' hc.operandMaps.nodup
    (hc.operandMaps.rank.trans hrank.symm) (TensorSharding.rank_eq_of_closedLike hclosed) hz
    hproject fun i d d' _ hd hd' => TensorSharding.axes_eq_of_closedLike hclosed hd hd'

/-- Projected, the expectation gives a factor what is meant for it, if that is read back. -/
theorem exists_factor?_of_readsBack (c : Comparison p o r operand value reference)
    (hp : Place p o r operand value)
    (he : expectation p o r operand value = .ok (some (expected, reference))) {fs : List Nat}
    (hfs : fs ∈ c.operandMapping.dims) {f : Nat}
    (hback : ∀ after part, c.Dealt after fs part → c.ReadsBack after f) :
    ∃ tensor x, TensorFactors.project c.mesh r c.operandMapping (some expected) = .ok tensor ∧
      tensor.factor? f = some x ∧ (c.want f).Same c.mesh (.ofFactor x) := by
  have hc := hp.checked c
  obtain ⟨c₁, dims, -, -, hvalidate⟩ := exists_comparison he
  cases Subsingleton.elim c₁ c
  obtain ⟨c₂, after, hafter, hdealt⟩ :=
    exists_dealt (Import.forM_eq_ok hp.values) hp.verifies hp.operand_eq he
  cases Subsingleton.elim c₂ c
  obtain ⟨part, hpart⟩ := hdealt fs hfs
  obtain ⟨x, hx, hsame⟩ := hback after part hpart
  obtain ⟨z, hz⟩ := TensorFactors.exists_project (s := some expected)
    (by simpa using (TensorSharding.validate_eq_ok_iff.1 hvalidate).2.allValid_dims)
    hc.operandMaps.known
  have hread : after.operands[operand]? = some z :=
    (Projection.projectAll_eq_ok (ofShardings_eq_ok hafter).1).2
      ⟨_, c.operandMapping_eq, by rw [getElem?_only_self _ hc.operand_lt, hz]⟩
  have hx : z.factor? f = some x := by
    simpa [Projection.factor?, Projection.tensor?, Projection.tensors, hread] using hx
  exact ⟨z, x, hz, hx, hsame⟩

/-- The factors of the resharded operand are meant to have the axes that they were meant to have. -/
theorem Mirrors.all_want (h : c.Mirrors c') (hp : Place p o r operand value)
    (hq : Place q o' r operand value')
    (he : expectation p o r operand value = .ok (some (expected, reference)))
    (hclosed : c'.source.closedLike = expected.closedLike) (hrecurs : c.Recurs) {fs : List Nat}
    (hfs : fs ∈ c.operandMapping.dims) {f : Nat} (hf : f ∈ fs) :
    mergeAdjacent c.mesh (c'.want f).all = mergeAdjacent c.mesh (c.want f).all := by
  rcases hrecurs fs hfs with hresult | hfilled
  · rw [h.want_eq hp hq ((hresult f hf).imp_right .inl)]
  · by_cases hresult : needsReplication r f = true ∨ c.resultMapping.has f = true
    · rw [h.want_eq hp hq (hresult.imp_right .inl)]
    · obtain ⟨z, x, hz, hx, hsame⟩ := c.exists_factor?_of_readsBack hp he hfs
        fun _ _ hpart => hpart.readsBack_iff_filled.2 hfilled f hf
      obtain ⟨c₁, dims, -, -, hvalidate⟩ := exists_comparison he
      cases Subsingleton.elim c₁ c
      rw [not_or] at hresult
      rw [hsame.all_eq, c'.want_eq, if_neg hresult.1, h.resultMapping_eq, if_neg hresult.2,
        h.portion_operand hp hq hvalidate hclosed hz, hx]
      rfl

/-- Nothing is expected of an operand whose dimensions have the axes that are meant for them. -/
theorem outcome_eq_none (hrank : c.operandMapping.rank = c.source.rank) {dims : List DimSharding}
    (hdims : expectedDims c.mesh r c.operandMapping c.resultMapping c.operandFactors
      c.resultFactors 0 c.source.dims = .ok dims)
    (haxes : ∀ i d, c.source.dims[i]? = some d →
      c.operandMapping.factorsOf i ∈ c.operandMapping.dims →
      mergeAdjacent c.mesh (c.joined (c.operandMapping.factorsOf i))
        = mergeAdjacent c.mesh d.axes) : c.outcome dims = none := by
  have hlayout : TensorSharding.hasSameLayout { c.source with dims := dims } c.source c.mesh
      = true := by
    refine TensorSharding.hasSameLayout_iff.2 ⟨rfl, length_expectedDims hdims, rfl,
      fun i d e hd he => ?_⟩
    have hlt : i < c.operandMapping.dims.length :=
      (List.getElem?_eq_some_iff.1 he).1.trans_eq hrank.symm
    have hfs : c.operandMapping.factorsOf i ∈ c.operandMapping.dims := by
      rw [Mapping.factorsOf, List.getD_eq_getElem?_getD, List.getElem?_eq_getElem hlt]
      exact List.getElem_mem hlt
    rw [expectedDims_eq hdims hd, Nat.zero_add]
    exact haxes i e he hfs
  rw [outcome, if_pos hlayout]

end Comparison

/-- What is expected of an operand that has been resharded is what it has been resharded to. -/
theorem expectation_reshard (h : Mirrors p q o o') (hp : Place p o r operand value)
    (hq : Place q o' r operand value') {s' : TensorSharding}
    (he : expectation p o r operand value = .ok (some (expected, reference)))
    (hs' : q.sharding? value' = some s') (hclosed : s'.closedLike = expected.closedLike)
    (hrecurs : ∀ c : Comparison p o r operand value reference, c.Recurs) :
    expectation q o' r operand value' = .ok none := by
  rcases hq.expectation_spec with ⟨hnone, -⟩ | ⟨reference', c', dims', hdims', hexpectation⟩
  · exact hnone
  obtain ⟨c, dims, hdims, hexpected, hvalidate⟩ := exists_comparison he
  cases hs'.symm.trans c'.source_eq
  have hname : c'.source.meshName = c.source.meshName := by
    rw [TensorSharding.meshName_eq_of_closedLike hclosed, hexpected]
  have hmirrors := Comparison.mirrors_of_meshName h hp hq c c' hname
  have hrank : c'.operandMapping.rank = c'.source.rank := by
    rw [hmirrors.operandMapping_eq, TensorSharding.rank_eq_of_closedLike hclosed,
      (TensorSharding.validate_eq_ok_iff.1 hvalidate).1, (hp.checked c).operandMaps.rank]
  rw [hexpectation, c'.outcome_eq_none hrank hdims' fun i d hd hfs => ?_]
  obtain ⟨e, he'⟩ := TensorSharding.exists_dim (TensorSharding.rank_eq_of_closedLike hclosed) hd
  have haxes := Comparison.expectedDims_eq hdims (d := e) (i := i) (by
    rw [hexpected] at he'
    exact he')
  rw [hmirrors.operandMapping_eq] at hfs ⊢
  rw [TensorSharding.axes_eq_of_closedLike hclosed he' hd, haxes, Nat.zero_add,
    Comparison.joined, Comparison.joined, hmirrors.mesh_eq, mergeAdjacent_mergeAdjacent,
    mergeAdjacent_mergeAdjacent]
  exact mergeAdjacent_flatMap_congr fun f hf =>
    hmirrors.all_want hp hq he hclosed (hrecurs c) hfs hf

end reshard

end mirrors
end Export
end MeshSharding
