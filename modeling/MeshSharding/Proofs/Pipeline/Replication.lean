import MeshSharding.Proofs.Pipeline.Operands

/-! Replication. Where an operand is compared with a result, what is expected of it has no axes for
factors that need replication, and it is made explicit if it is valid. Nothing is expected of an
operand where no result is sharded over its mesh, so there such a factor keeps its axes. -/
namespace MeshSharding

open AxisList Program

namespace Export

variable {p q : Program} {o x : Operation} {r : Rule} {operand value value' reference f : Nat}
  {s : TensorSharding}

/-- The value, which is the operand of that number of an operation with the rule, has no axes for
the factor. -/
def Bare (p : Program) (r : Rule) (operand value f : Nat) : Prop :=
  ∃ m x, Gives p r operand value f m x ∧ x.axes = [] ∧ x.overflow = []

/-- The first of the results that are sharded over the mesh is the reference. -/
theorem exists_reference {meshName : String} {results : List Nat}
    (hlt : ∀ v ∈ results, v < p.values.length) {w : Nat} (hw : w ∈ results) {t : TensorSharding}
    (ht : p.sharding? w = some t) (hname : t.meshName = meshName) (first : Nat) :
    ∃ found, referenceResult p meshName first results = .ok (some found) := by
  induction results generalizing first with
  | nil => cases hw
  | cons v rest ih =>
    rw [List.forall_mem_cons] at hlt
    have hv := List.getElem?_eq_getElem hlt.1
    rw [referenceResult, value_eq_ok_iff.2 hv]
    simp only [bind, Except.bind]
    rcases List.mem_cons.1 hw with rfl | hw
    · have hs : p.values[w].sharding = some t := by
        rw [sharding?, hv] at ht
        exact ht
      simp only [hs, hname, if_true]
      exact ⟨_, rfl⟩
    · split
      · split
        · exact ⟨_, rfl⟩
        · exact ih hlt.2 hw _
      · exact ih hlt.2 hw _

namespace Comparison

variable {c : Comparison p o r operand value reference}

/-- What is computed for the operand is valid for it. -/
def Achievable (c : Comparison p o r operand value reference) : Prop :=
  ∃ dims, expectedDims c.mesh r c.operandMapping c.resultMapping c.operandFactors c.resultFactors 0
      c.source.dims = .ok dims ∧
    TensorSharding.validate { c.source with dims := dims } c.mesh (p.shapeOf value) = .ok ()

/-- A sharding with the layout that is computed for the operand has no axes for a factor that needs
replication, if what is meant for the factors of the dimension fills them. -/
theorem exists_factor?_of_hasSameLayout (hc : c.Checked) (hs : s.Valid c.mesh)
    {dims : List DimSharding}
    (hdims : expectedDims c.mesh r c.operandMapping c.resultMapping c.operandFactors c.resultFactors
      0 c.source.dims = .ok dims)
    (hvalid : TensorSharding.validate { c.source with dims := dims } c.mesh (p.shapeOf value)
      = .ok ())
    (hlayout : s.hasSameLayout { c.source with dims := dims } c.mesh = true)
    {fs : List Nat} (hfs : fs ∈ c.operandMapping.dims) (hfilled : Filled c.mesh r c.want fs)
    (hf : f ∈ fs) (hrep : needsReplication r f = true) :
    ∃ tensor factor, TensorFactors.project c.mesh r c.operandMapping (some s) = .ok tensor ∧
      tensor.factor? f = some factor ∧ factor.axes = [] ∧ factor.overflow = [] := by
  obtain ⟨-, hrank, -, hsame⟩ := TensorSharding.hasSameLayout_iff.1 hlayout
  obtain ⟨tensor, htensor⟩ := TensorFactors.exists_project (s := some s)
    (by simpa using hs.allValid_dims) hc.operandMaps.known
  obtain ⟨i, hi⟩ := List.getElem?_of_mem hfs
  have hlt : i < s.rank := by
    rw [hrank, (TensorSharding.validate_eq_ok_iff.1 hvalid).1, ← hc.operandMaps.rank]
    exact (List.getElem?_eq_some_iff.1 hi).1
  have hd : s.dims[i]? = some s.dims[i] := List.getElem?_eq_getElem hlt
  obtain ⟨e, he⟩ := TensorSharding.exists_dim hrank hd
  obtain ⟨part, factor, hpart, hmem, hfactor⟩ :=
    TensorFactors.exists_factor?_of_mem hs hc.operandMaps.nodup htensor hi hf hd
  have hjoined : mergeAdjacent c.mesh s.dims[i].axes
      = mergeAdjacent c.mesh (fs.flatMap fun f => (c.want f).all) := by
    have haxes := expectedDims_eq hdims he
    rw [Nat.zero_add, Mapping.factorsOf_eq hi] at haxes
    rw [hsame i _ e hd he, haxes, joined, mergeAdjacent_mergeAdjacent]
  have hwant : (c.want f).all = [] := by
    rw [want, if_pos hrep]
    rfl
  have hnil := TensorFactors.all_dealOut_eq_nil
    (fun f hf => hc.allValid_want (List.mem_flatten_of_mem hfs hf)) (hs.allValid_axes hd) hjoined
    hfilled hpart _ hmem hwant
  obtain ⟨haxes, hoverflow⟩ := List.append_eq_nil_iff.1 hnil
  exact ⟨tensor, factor, htensor, hfactor, haxes, hoverflow⟩

/-- A valid sharding that is computed for the operand is expected unless it has the layout that the
operand has. -/
theorem outcome_eq {dims : List DimSharding}
    (hvalid : TensorSharding.validate { c.source with dims := dims } c.mesh (p.shapeOf value)
      = .ok ()) :
    c.outcome dims = if TensorSharding.hasSameLayout { c.source with dims := dims } c.source c.mesh
      then none else some ({ c.source with dims := dims }, reference) := by
  rw [outcome, hvalid]

end Comparison

/-- An operand that is compared with a result ends up with the layout that is computed for it, if
that is valid. -/
theorem Turns.hasSameLayout (h : Turns p q o r operand value value')
    (hp : Place p o r operand value) (c : Comparison p o r operand value reference)
    {dims : List DimSharding}
    (hdims : expectedDims c.mesh r c.operandMapping c.resultMapping c.operandFactors c.resultFactors
      0 c.source.dims = .ok dims)
    (hvalid : TensorSharding.validate { c.source with dims := dims } c.mesh (p.shapeOf value)
      = .ok ())
    (hs : q.sharding? value' = some s) :
    s.Valid c.mesh ∧ s.hasSameLayout { c.source with dims := dims } c.mesh = true := by
  have houtcome := hp.expectation_eq_outcome c hdims
  rw [c.outcome_eq hvalid] at houtcome
  have hexpected := (TensorSharding.validate_eq_ok_iff.1 hvalid).2
  have hsource := (hp.checked c).source
  rw [Turns, hs, Option.map_some, c.source_eq, Option.map_some] at h
  by_cases hsame : TensorSharding.hasSameLayout { c.source with dims := dims } c.source c.mesh
      = true
  · rw [if_pos hsame] at houtcome
    rcases h with ⟨hkept, -⟩ | ⟨_, _, ⟨-, -, -, he⟩, -⟩
    · have hkept := Option.some.inj hkept
      exact ⟨TensorSharding.valid_of_closedLike hkept hsource,
        (TensorSharding.hasSameLayout_congr hkept rfl).trans
          (TensorSharding.hasSameLayout_symm hsame)⟩
    · cases houtcome.symm.trans he
  · rw [if_neg hsame] at houtcome
    rcases h with ⟨hkept, hnone | ⟨expected, _, hsome, hskips⟩⟩ | ⟨_, _, ⟨-, -, -, he⟩, -, hturned⟩
    · cases houtcome.symm.trans hnone
    · cases houtcome.symm.trans hsome
      have hkept := Option.some.inj hkept
      obtain ⟨_, _, hs', hm, hreshard⟩ := hskips
      cases hs'.symm.trans c.source_eq
      cases hm.symm.trans c.mesh_eq
      have hsame := Resharding.hasSameLayout_of_reshard_eq_nil hsource.allValid_dims
        hexpected.allValid_dims hreshard
      exact ⟨TensorSharding.valid_of_closedLike hkept hsource,
        (TensorSharding.hasSameLayout_congr hkept rfl).trans hsame⟩
    · cases houtcome.symm.trans he
      have hturned := Option.some.inj hturned
      exact ⟨TensorSharding.valid_of_closedLike hturned hexpected,
        (TensorSharding.hasSameLayout_congr hturned rfl).trans
          (TensorSharding.hasSameLayout_refl _ _)⟩

/-- The operation continues with bare factors: an operand that is compared with a result has no axes
for factors that need replication. -/
theorem Continues.exists_bare (h : Continues p q r o x)
    (hplace : ∀ value, o.operands[operand]? = some value → Place p o r operand value)
    (hv' : x.operands[operand]? = some value') (hs : q.sharding? value' = some s)
    (hresult : ∃ w ∈ x.results, ∃ t, q.sharding? w = some t ∧ t.meshName = s.meshName) :
    ∃ value reference, o.operands[operand]? = some value ∧
      ∃ c : Comparison p o r operand value reference, c.Achievable →
        ∀ fs ∈ c.operandMapping.dims, Filled c.mesh r c.want fs → ∀ f ∈ fs,
          Comparison.needsReplication r f = true → Bare q r operand value' f := by
  obtain ⟨value, hv, hturns⟩ := h.turns operand value' hv'
  have hp := hplace value hv
  -- the operand was sharded over the mesh, too
  obtain ⟨source, hsource, hname⟩ : ∃ source, p.sharding? value = some source ∧
      s.meshName = source.meshName := by
    rw [Turns, hs, Option.map_some] at hturns
    rcases hturns with ⟨hkept, -⟩ | ⟨expected, _, ⟨-, -, -, he⟩, -, hturned⟩
    · obtain ⟨source, hsource, hlike⟩ := Option.map_eq_some_iff.1 hkept.symm
      exact ⟨source, hsource, TensorSharding.meshName_eq_of_closedLike hlike.symm⟩
    · obtain ⟨c, dims, -, rfl, -⟩ := exists_comparison he
      have hname := TensorSharding.meshName_eq_of_closedLike (Option.some.inj hturned)
      exact ⟨c.source, c.source_eq, hname⟩
  obtain ⟨⟨index, reference, t⟩, hfound⟩ : ∃ found,
      referenceResult p source.meshName 0 o.results = .ok (some found) := by
    obtain ⟨w, hw, t', ht', htname⟩ := hresult
    rw [h.eq] at hw
    obtain ⟨t, ht, hlike⟩ :=
      Option.map_eq_some_iff.1 ((h.results w hw).symm.trans (congrArg _ ht'))
    refine exists_reference hp.results_lt hw ht ?_ 0
    rw [TensorSharding.meshName_eq_of_closedLike hlike, htname, hname]
  obtain ⟨c⟩ := hp.nonempty_comparison hsource hfound
  refine ⟨value, reference, hv, c, fun hachievable fs hfs hfilled f hf hrep => ?_⟩
  cases hsource.symm.trans c.source_eq
  obtain ⟨dims, hdims, hvalid⟩ := hachievable
  obtain ⟨hsvalid, hlayout⟩ := hturns.hasSameLayout hp c hdims hvalid hs
  obtain ⟨tensor, factor, htensor, hfactor, hnone⟩ := c.exists_factor?_of_hasSameLayout
    (hp.checked c) hsvalid hdims hvalid hlayout hfs hfilled hf hrep
  refine ⟨c.mesh, factor, ⟨s, c.operandMapping, tensor, hs, ?_, c.operandMapping_eq, htensor,
    hfactor⟩, hnone⟩
  rw [h.mesh, hname]
  exact c.mesh_eq

end Export

namespace Pipeline

open Export

/-- Behind a run that inserts collectives and keeps rules, an operand of an operation of which a
result is sharded over the mesh of the operand has no axes for factors that need replication, where
what the operation expects is valid for the operand and fills the factors of the dimension. -/
theorem bare_of_run (l : Pipeline) (p imported propagated exported : Program)
    (provenance : Provenance) (report : Report) (hp : p.WellFormed) (hlinked : p.Linked)
    (hverify : p.RulesVerify) (himport : l.importStage p = .ok imported)
    (hpropagate : l.propagateStage imported = .ok (propagated, provenance))
    (hrun : l.run p = .ok (exported, report)) (hinserts : l.options.insertsCollectives = true)
    (hkeep : l.options.keepRules = true) :
    ∀ x ∈ exported.operations, ∀ r, x.rule = some r →
      ∃ o ∈ (withoutGroups propagated).operations,
        Continues (withoutGroups propagated) exported r o x ∧
        ∀ (operand value' : Nat) (s : TensorSharding), x.operands[operand]? = some value' →
          exported.sharding? value' = some s →
          (∃ w ∈ x.results, ∃ t, exported.sharding? w = some t ∧ t.meshName = s.meshName) →
          ∃ value reference, o.operands[operand]? = some value ∧
            ∃ c : Comparison (withoutGroups propagated) o r operand value reference,
              c.Achievable → ∀ fs ∈ c.operandMapping.dims, Filled c.mesh r c.want fs → ∀ f ∈ fs,
                Comparison.needsReplication r f = true → Bare exported r operand value' f := by
  intro x hx r hr
  have himports := Import.imports_importProgram hlinked (fun o ho => hp.operands_lt ho)
    (fun o ho _ r hr => hverify o ho r hr) himport
  obtain ⟨_, _, himport', hpropagate', hexport⟩ := stages_of_run hrun
  cases himport.symm.trans himport'
  cases hpropagate.symm.trans hpropagate'
  have hexportable := exportable_withoutGroups himports hpropagate
  obtain ⟨o, ho, hcontinues⟩ :=
    exists_continues hexportable hinserts hkeep rfl hexport hx hr
  exact ⟨o, ho, hcontinues, fun operand value' s hv' hs hresult => hcontinues.exists_bare
    (fun value hv => hexportable.place ho hcontinues.rule hv) hv' hs hresult⟩

/-- All dimensions of operand and result need replication. -/
def regroupRule : Rule :=
  ⟨[4, 3, 6, 2].map fun size => ⟨size, .needReplication, false⟩, [⟨[[0], [1]]⟩], [⟨[[2], [3]]⟩],
    false⟩

/-- The operand of a reshape is cut along its first dimension. -/
def regroupSource : TensorSharding :=
  .ofDims "mesh" [.ofAxes [.full "x"] true, .ofAxes [] true]

def regroupTarget : TensorSharding := .ofDims "mesh" [.ofAxes [] true, .ofAxes [] true]

def regrouped (result : Option TensorSharding) : Program :=
  .single (.grid 2 2 Nat.two_pos Nat.two_pos) [([4, 3], some regroupSource)] "stablehlo.reshape"
    regroupRule [6, 2] result

theorem rulesVerify_regrouped (result : Option TensorSharding) : (regrouped result).RulesVerify :=
  rulesVerify_single _ _ _ (eq_ok_of_toOption (by decide +kernel))

def regroupOperation : Operation :=
  ⟨"stablehlo.reshape", [0], [1], [], some regroupRule⟩

/-- The operand gives the first factor an axis, and the result gives none. -/
def regroupComparison :
    Comparison (regrouped (some regroupTarget)) regroupOperation regroupRule 0 0 1 where
  mesh := .grid 2 2 Nat.two_pos Nat.two_pos
  source := regroupSource
  target := regroupTarget
  index := 0
  operandMapping := ⟨[[0], [1]]⟩
  resultMapping := ⟨[[2], [3]]⟩
  before := ⟨[⟨[(0, ⟨[.full "x"], true, true, []⟩), (1, ⟨[], true, true, []⟩)], [], []⟩],
    [⟨[(2, ⟨[], true, true, []⟩), (3, ⟨[], true, true, []⟩)], [], []⟩]⟩
  operandFactors := ⟨[(0, ⟨[.full "x"], true, true, []⟩), (1, ⟨[], true, true, []⟩)], [], []⟩
  resultFactors := ⟨[(2, ⟨[], true, true, []⟩), (3, ⟨[], true, true, []⟩)], [], []⟩
  mesh_eq := rfl
  source_eq := rfl
  target_eq := rfl
  operandMapping_eq := rfl
  resultMapping_eq := rfl
  before_eq := rfl
  operandFactors_eq := rfl
  resultFactors_eq := rfl

/-- With a sharded result the operand is gathered. -/
theorem bare_of_run_regrouped : ∃ exported report,
    keeping.run (regrouped (some regroupTarget)) = .ok (exported, report) ∧
      report.reshards.length = 1 ∧ ∃ x ∈ exported.operations, x.rule = some regroupRule ∧
        ∃ value', x.operands[0]? = some value' ∧ Bare exported regroupRule 0 value' 0 := by
  let p := regrouped (some regroupTarget)
  let x := { regroupOperation with operands := [2] }
  have h : (do
      let (exported, report) ← keeping.run p
      return (report.reshards.length, exported.operations[1]?, exported.sharding? 2,
        exported.sharding? 1))
        = Except.ok (1, some x, some regroupTarget, some regroupTarget) :=
    eq_ok_of_toOption (by decide +kernel)
  have hstages : (do
      let imported ← keeping.importStage p
      let (propagated, _) ← keeping.propagateStage imported
      return withoutGroups propagated) = Except.ok p := eq_ok_of_toOption (by decide +kernel)
  obtain ⟨⟨exported, report⟩, hrun, h⟩ := bind_eq_ok_iff.1 h
  obtain ⟨imported, himport, hstages⟩ := bind_eq_ok_iff.1 hstages
  obtain ⟨⟨propagated, provenance⟩, hpropagate, hstages⟩ := bind_eq_ok_iff.1 hstages
  obtain ⟨hlength, hx, hoperand, hresult⟩ : report.reshards.length = 1 ∧
      exported.operations[1]? = some x ∧ exported.sharding? 2 = some regroupTarget ∧
      exported.sharding? 1 = some regroupTarget := by simpa using Except.ok.inj h
  have hp : withoutGroups propagated = p := Except.ok.inj hstages
  obtain ⟨o, ho, -, hbare⟩ := bare_of_run keeping p imported propagated exported provenance report
    (wellFormed_single ..) (linked_single ..) (rulesVerify_regrouped _) himport hpropagate hrun
    rfl rfl x (List.mem_of_getElem? hx) regroupRule rfl
  obtain ⟨value, reference, hvalue, c, hbare⟩ := hbare 0 2 regroupTarget rfl hoperand
    ⟨1, List.mem_cons_self, regroupTarget, hresult, rfl⟩
  rw [hp] at ho
  obtain rfl := List.mem_singleton.1 ho
  cases hvalue
  have hreference := (referenceResult_eq c.target_eq).2.1
  obtain rfl := List.mem_singleton.1 (List.mem_of_getElem? hreference)
  clear hreference
  revert c
  rw [hp]
  intro c hbare
  obtain rfl := Subsingleton.elim c regroupComparison
  exact ⟨exported, report, hrun, hlength, x, List.mem_of_getElem? hx, rfl, 2, rfl,
    hbare ⟨regroupTarget.dims, eq_ok_of_toOption (by decide +kernel),
      eq_ok_of_toOption (by decide +kernel)⟩ [0] List.mem_cons_self rfl 0 List.mem_cons_self rfl⟩

/-- Without one nothing is expected of the operand, which stays cut. -/
theorem not_bare_of_run_regrouped :
    let p := regrouped none
    p.WellFormed ∧ p.Linked ∧ p.RulesVerify ∧ keeping.options.insertsCollectives = true ∧
      keeping.options.keepRules = true ∧ ∃ exported report,
      keeping.run p = .ok (exported, report) ∧ ∃ x ∈ exported.operations,
        x.rule = some regroupRule ∧ x.operands[0]? = some 0 ∧
        (exported.sharding? 0).isSome ∧ Comparison.needsReplication regroupRule 0 = true ∧
        ¬ Bare exported regroupRule 0 0 0 := by
  intro p
  refine ⟨wellFormed_single .., linked_single .., rulesVerify_regrouped _, rfl, rfl, ?_⟩
  have h : (do
      let (exported, _) ← keeping.run p
      return (exported.meshes, exported.operations[0]?, exported.sharding? 0))
        = Except.ok (p.meshes, some regroupOperation, some regroupSource) :=
    eq_ok_of_toOption (by decide +kernel)
  obtain ⟨⟨exported, report⟩, hrun, h⟩ := bind_eq_ok_iff.1 h
  obtain ⟨hmeshes, hx, hs⟩ : exported.meshes = p.meshes ∧
      exported.operations[0]? = some regroupOperation ∧
      exported.sharding? 0 = some regroupSource := by simpa using Except.ok.inj h
  refine ⟨exported, report, hrun, regroupOperation, List.mem_of_getElem? hx, rfl, rfl,
    by rw [hs]; rfl, rfl, ?_⟩
  rintro ⟨m, x, ⟨s, mapping, tensor, hs', hm, hmapping, hproject, hfactor⟩, haxes, -⟩
  cases hs.symm.trans hs'
  rw [Program.mesh, hmeshes] at hm
  cases hm
  cases hmapping
  have hactual : TensorFactors.project (.grid 2 2 Nat.two_pos Nat.two_pos) regroupRule ⟨[[0], [1]]⟩
      (some regroupSource)
        = .ok ⟨[(0, ⟨[.full "x"], true, true, []⟩), (1, ⟨[], true, true, []⟩)], [], []⟩ :=
    eq_ok_of_toOption (by decide +kernel)
  cases hactual.symm.trans hproject
  cases hfactor
  cases haxes

end Pipeline
end MeshSharding
