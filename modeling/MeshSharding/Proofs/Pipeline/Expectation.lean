import MeshSharding.Pipeline.Export
import MeshSharding.Proofs.Pipeline.Import
import MeshSharding.Proofs.Propagation.Projection
import MeshSharding.Proofs.Rule.Verify

/-! The sharding that an operation expects for an operand. Projected onto the rule, it gives
the factors of a dimension the axes that are meant for them exactly if these axes fill the
factors; else an operand is resharded to a sharding that means something else. -/
namespace MeshSharding

open AxisList Program

namespace Export

variable {p : Program} {o : Operation} {r : Rule} {operand value reference : Nat}
  {expected s : TensorSharding} {m : Mesh}

section lookup

theorem referenceResult_eq {meshName : String} {first : Nat} {results : List Nat}
    {index : Nat} {t : TensorSharding}
    (h : referenceResult p meshName first results = .ok (some (index, reference, t))) :
    first ≤ index ∧ results[index - first]? = some reference ∧
      p.sharding? reference = some t ∧ t.meshName = meshName := by
  induction results generalizing first with
  | nil => cases h
  | cons result rest ih =>
    obtain ⟨v, hv, h⟩ := bind_eq_ok_iff.1 h
    have hnext : referenceResult p meshName (first + 1) rest
        = .ok (some (index, reference, t)) → first ≤ index ∧
          (result :: rest)[index - first]? = some reference ∧
          p.sharding? reference = some t ∧ t.meshName = meshName := fun h => by
      obtain ⟨hle, hget, hrest⟩ := ih h
      obtain ⟨k, rfl⟩ : ∃ k, index = first + 1 + k := ⟨index - (first + 1), by omega⟩
      have hk : first + 1 + k - first = (first + 1 + k - (first + 1)) + 1 := by omega
      exact ⟨by omega, by rw [hk, List.getElem?_cons_succ]; exact hget, hrest⟩
    cases hs : v.sharding with
    | none => exact hnext (by simpa [hs] using h)
    | some u =>
      simp only [hs] at h
      split at h
      · rename_i hmesh
        cases h
        exact ⟨Nat.le_refl _, by simp, by simp [sharding?, value_eq_ok_iff.1 hv, hs], hmesh⟩
      · exact hnext h

theorem getElem?_only (n k : Nat) (s : TensorSharding) (i : Nat) :
    ∀ x ∈ (only n k s)[i]?.getD none, x = s := by
  intro x hx
  simp only [only, List.getElem?_set, List.getElem?_replicate] at hx
  grind

theorem getElem?_only_self {n k : Nat} (s : TensorSharding) (h : k < n) :
    (only n k s)[k]?.getD none = some s := by
  simp [only, h]

end lookup

/-- What an expectation is computed from: an operand and the reference result, with their
shardings and what these give the factors of the rule. -/
structure Comparison (p : Program) (o : Operation) (r : Rule) (operand value reference : Nat)
    where
  mesh : Mesh
  source : TensorSharding
  target : TensorSharding
  index : Nat
  operandMapping : Mapping
  resultMapping : Mapping
  before : Projection
  operandFactors : TensorFactors
  resultFactors : TensorFactors
  mesh_eq : p.mesh source.meshName = .ok mesh
  source_eq : p.sharding? value = some source
  target_eq : referenceResult p source.meshName 0 o.results
    = .ok (some (index, reference, target))
  operandMapping_eq : r.operands[operand]? = some operandMapping
  resultMapping_eq : r.results[index]? = some resultMapping
  before_eq : Projection.ofShardings mesh r (only o.operands.length operand source)
    (only o.results.length index target) = .ok before
  operandFactors_eq : before.operands[operand]? = some operandFactors
  resultFactors_eq : before.results[index]? = some resultFactors

namespace Comparison

/-- A program determines what is compared. -/
instance : Subsingleton (Comparison p o r operand value reference) where
  allEq := by
    rintro ⟨m, s, t, index, om, rm, before, x, y, hm, hs, ht, hom, hrm, hb, hx, hy⟩
      ⟨m', s', t', index', om', rm', before', x', y', hm', hs', ht', hom', hrm', hb', hx', hy'⟩
    cases hs.symm.trans hs'
    cases hm.symm.trans hm'
    cases ht.symm.trans ht'
    cases hom.symm.trans hom'
    cases hrm.symm.trans hrm'
    cases hb.symm.trans hb'
    cases hx.symm.trans hx'
    cases hy.symm.trans hy'
    rfl

variable (c : Comparison p o r operand value reference)

def needsReplication (r : Rule) (f : Nat) : Bool :=
  r.factors[f]?.any fun x => x.type = .needReplication

/-- The factor may be sharded, and both the operand and the reference result have it. -/
def Shared (f : Nat) : Prop :=
  c.operandMapping.has f = true ∧ c.resultMapping.has f = true ∧ needsReplication r f = false

/-- What the operand or the reference result gives a factor. -/
def factor? (f : Nat) : Option FactorSharding :=
  c.before.factor? (if c.resultMapping.has f then ⟨.result, c.index⟩ else ⟨.operand, operand⟩) f

/-- The axes that are meant for a factor: none if it needs replication, else those of the
reference result if that has the factor, and those of the operand if not. -/
def want (f : Nat) : Portion :=
  if needsReplication r f then ⟨[], []⟩
  else match c.factor? f with
    | some x => .ofFactor x
    | none => ⟨[], []⟩

/-- A projection gives the factor of the operand what is meant for it. -/
def ReadsBack (after : Projection) (f : Nat) : Prop :=
  ∃ x, after.factor? ⟨.operand, operand⟩ f = some x ∧ (c.want f).Same c.mesh (.ofFactor x)

/-- A projection gives the factor of the operand the axes that the reference result has. -/
def Agrees (after : Projection) (f : Nat) : Prop :=
  ∃ x y, after.factor? ⟨.operand, operand⟩ f = some x ∧
    c.before.factor? ⟨.result, c.index⟩ f = some y ∧
    equivalent c.mesh x.axes y.axes = true ∧ equivalent c.mesh x.overflow y.overflow = true

end Comparison

theorem expectedSharding_eq_ok {index : Nat} {t : TensorSharding}
    (h : expectedSharding m o r operand index s t = .ok (some expected)) :
    ∃ om rm before x y dims, r.operands[operand]? = some om ∧ r.results[index]? = some rm ∧
      Projection.ofShardings m r (only o.operands.length operand s)
        (only o.results.length index t) = .ok before ∧
      before.operands[operand]? = some x ∧ before.results[index]? = some y ∧
      expectedDims m r om rm x y 0 s.dims = .ok dims ∧ expected = { s with dims := dims } := by
  unfold expectedSharding at h
  split at h
  · rename_i om rm hom hrm
    obtain ⟨before, hbefore, h⟩ := bind_eq_ok_iff.1 h
    split at h
    · rename_i x y hx hy
      obtain ⟨dims, hdims, h⟩ := bind_eq_ok_iff.1 h
      cases h
      exact ⟨om, rm, before, x, y, dims, hom, hrm, hbefore, hx, hy, hdims, rfl⟩
    · cases h
  · cases h

/-- An expectation has its dimensions from what it is computed from, and is valid. -/
theorem exists_comparison
    (h : expectation p o r operand value = .ok (some (expected, reference))) :
    ∃ (c : Comparison p o r operand value reference) (dims : List DimSharding),
      expectedDims c.mesh r c.operandMapping c.resultMapping c.operandFactors c.resultFactors 0
        c.source.dims = .ok dims ∧
      expected = { c.source with dims := dims } ∧
      expected.validate c.mesh (p.shapeOf value) = .ok () := by
  obtain ⟨v, hv, h⟩ := bind_eq_ok_iff.1 h
  have hvalue := value_eq_ok_iff.1 hv
  have hshape : p.shapeOf value = v.shape := by simp [shapeOf, hvalue]
  cases hs : v.sharding with
  | none => simp only [hs] at h; cases h
  | some s =>
    have hsource : p.sharding? value = some s := by simp [sharding?, hvalue, hs]
    simp only [hs] at h
    obtain ⟨_ | ⟨index, reference', t⟩, hfound, h⟩ := bind_eq_ok_iff.1 h
    · cases h
    · simp only at h
      split at h
      · cases h
      · obtain ⟨m, hm, h⟩ := bind_eq_ok_iff.1 h
        obtain ⟨_ | expected', hexpected, h⟩ := bind_eq_ok_iff.1 h
        · cases h
        · simp only at h
          split at h
          · cases h
          · split at h
            · rename_i hvalidate
              cases h
              obtain ⟨om, rm, before, x, y, dims, hom, hrm, hbefore, hx, hy, hdims, heq⟩ :=
                expectedSharding_eq_ok hexpected
              exact ⟨⟨m, s, t, index, om, rm, before, x, y, hm, hsource, hfound, hom, hrm,
                hbefore, hx, hy⟩, dims, hdims, heq, hshape ▸ hvalidate⟩
            · cases h

theorem ofShardings_eq_ok {os rs : List (Option TensorSharding)} {q : Projection}
    (h : Projection.ofShardings m r os rs = .ok q) :
    Projection.projectAll m r r.operands os = .ok q.operands ∧
      Projection.projectAll m r r.results rs = .ok q.results := by
  obtain ⟨xs, hxs, h⟩ := bind_eq_ok_iff.1 h
  obtain ⟨ys, hys, h⟩ := bind_eq_ok_iff.1 h
  cases h
  exact ⟨hxs, hys⟩

namespace Comparison

variable {c : Comparison p o r operand value reference}

theorem factor?_eq (f : Nat) : c.factor? f =
    if c.resultMapping.has f then c.resultFactors.factor? f else c.operandFactors.factor? f := by
  have hx := c.operandFactors_eq
  have hy := c.resultFactors_eq
  by_cases hhas : c.resultMapping.has f = true
  · simp [factor?, Projection.factor?, Projection.tensor?, Projection.tensors, hhas, hy]
  · simp [factor?, Projection.factor?, Projection.tensor?, Projection.tensors, hhas, hx]

theorem expectedAxes_eq {fs : List Nat} {axes : List AxisRef}
    (h : expectedAxes r c.resultMapping c.operandFactors c.resultFactors fs = .ok axes) :
    axes = fs.flatMap fun f => (c.want f).all := by
  induction fs generalizing axes with
  | nil => cases h; rfl
  | cons f fs ih =>
    rw [expectedAxes] at h
    cases hr : r.factors[f]? with
    | none => simp only [hr] at h; cases h
    | some factor =>
      simp only [hr] at h
      obtain ⟨more, hmore, h⟩ := bind_eq_ok_iff.1 h
      rw [List.flatMap_cons, ← ih hmore]
      split at h
      · rename_i htype
        cases h
        simp [want, needsReplication, hr, htype, Portion.all]
      · rename_i htype
        rw [apply_ite (TensorFactors.factor? · f), ← factor?_eq] at h
        cases hc : c.factor? f with
        | none =>
          rw [hc] at h
          cases h
          simp [want, needsReplication, hr, htype, hc, Portion.all]
        | some z =>
          rw [hc] at h
          cases h
          simp [want, needsReplication, hr, htype, hc, Portion.all, Portion.ofFactor]

/-- The axes of a dimension with the given factors, as they are meant. -/
def joined (c : Comparison p o r operand value reference) (fs : List Nat) : List AxisRef :=
  mergeAdjacent c.mesh (fs.flatMap fun f => (c.want f).all)

theorem expectedDims_eq {dim : Nat} {ds dims : List DimSharding}
    (h : expectedDims c.mesh r c.operandMapping c.resultMapping c.operandFactors
      c.resultFactors dim ds = .ok dims) {i : Nat} {d : DimSharding} (hd : dims[i]? = some d) :
    d.axes = c.joined (c.operandMapping.factorsOf (dim + i)) := by
  induction ds generalizing dim dims i with
  | nil => cases h; simp at hd
  | cons first ds ih =>
    obtain ⟨axes, haxes, h⟩ := bind_eq_ok_iff.1 h
    obtain ⟨rest, hrest, h⟩ := bind_eq_ok_iff.1 h
    cases h
    cases i with
    | zero =>
      cases hd
      rw [joined, Nat.add_zero, ← expectedAxes_eq haxes]
      rfl
    | succ i =>
      rw [ih hrest (by simpa using hd), Nat.add_right_comm, Nat.add_assoc]

/-- Both shardings are valid, and the rule maps both tensors. -/
structure Checked (c : Comparison p o r operand value reference) : Prop where
  source : c.source.Valid c.mesh
  target : c.target.Valid c.mesh
  operandMaps : r.Maps c.operandMapping (p.shapeOf value)
  resultMaps : r.Maps c.resultMapping (p.shapeOf reference)
  operand_lt : operand < o.operands.length
  index_lt : c.index < o.results.length

theorem checked (c : Comparison p o r operand value reference)
    (hvalid : p.values.forM (Import.checkValue p) = .ok ())
    (hrule : r.verify (p.signatureOf o) = .ok ())
    (hvalue : o.operands[operand]? = some value) : c.Checked := by
  obtain ⟨-, hget, htarget, hmesh⟩ := referenceResult_eq c.target_eq
  rw [Nat.sub_zero] at hget
  exact
    { source := Import.valid_of_checkValue hvalid c.source_eq c.mesh_eq
      target := Import.valid_of_checkValue hvalid htarget (hmesh ▸ c.mesh_eq)
      operandMaps := (Rule.maps_of_verify hrule .operand).2 operand _ _ c.operandMapping_eq
        (by simp [Signature.shapes, signatureOf, hvalue])
      resultMaps := (Rule.maps_of_verify hrule .result).2 c.index _ _ c.resultMapping_eq
        (by simp [Signature.shapes, signatureOf, hget])
      operand_lt := (List.getElem?_eq_some_iff.1 hvalue).1
      index_lt := (List.getElem?_eq_some_iff.1 hget).1 }

theorem Checked.project_operand (hc : c.Checked) :
    TensorFactors.project c.mesh r c.operandMapping (some c.source) = .ok c.operandFactors := by
  obtain ⟨om, hom, hx⟩ :=
    (Projection.projectAll_eq_ok (ofShardings_eq_ok c.before_eq).1).1 c.operandFactors_eq
  cases hom.symm.trans c.operandMapping_eq
  rwa [getElem?_only_self c.source hc.operand_lt] at hx

theorem Checked.project_result (hc : c.Checked) :
    TensorFactors.project c.mesh r c.resultMapping (some c.target) = .ok c.resultFactors := by
  obtain ⟨rm, hrm, hy⟩ :=
    (Projection.projectAll_eq_ok (ofShardings_eq_ok c.before_eq).2).1 c.resultFactors_eq
  cases hrm.symm.trans c.resultMapping_eq
  rwa [getElem?_only_self c.target hc.index_lt] at hy

/-- Every factor of the operand is known, with valid axes. -/
theorem Checked.exists_factor? (hc : c.Checked) {f : Nat}
    (hf : f ∈ c.operandMapping.dims.flatten) :
    ∃ z, c.factor? f = some z ∧ AllValid c.mesh (Portion.ofFactor z).all := by
  simp only [factor?_eq]
  by_cases hhas : c.resultMapping.has f = true
  · rw [if_pos hhas]
    exact TensorFactors.exists_factor?_project hc.target hc.resultMaps.nodup hc.project_result
      (Mapping.has_iff.1 hhas)
  · rw [if_neg hhas]
    exact TensorFactors.exists_factor?_project hc.source hc.operandMaps.nodup hc.project_operand hf

/-- What is meant for a factor of the operand is valid. -/
theorem Checked.allValid_want (hc : c.Checked) {f : Nat}
    (hf : f ∈ c.operandMapping.dims.flatten) : AllValid c.mesh (c.want f).all := by
  obtain ⟨z, hz, hv⟩ := hc.exists_factor? hf
  unfold want
  split
  · simp [Portion.all, AllValid]
  · rwa [hz]

/-- Agreeing with the reference result is reading back what is meant for a shared factor. -/
theorem agrees_iff {after : Projection} {f : Nat} (hf : c.Shared f)
    (hz : ∃ z, c.factor? f = some z) : c.Agrees after f ↔ c.ReadsBack after f := by
  obtain ⟨z, hz⟩ := hz
  obtain ⟨-, hhas, hrep⟩ := hf
  have hwant : c.want f = .ofFactor z := by simp [want, hrep, hz]
  have hz : c.before.factor? ⟨.result, c.index⟩ f = some z := by
    rwa [factor?, if_pos hhas] at hz
  simp only [Agrees, ReadsBack, hwant, hz, Portion.Same, Portion.ofFactor, equivalent,
    decide_eq_true_eq, Option.some.injEq, exists_eq_left', exists_and_left]
  refine exists_congr fun x => and_congr_right fun _ => ?_
  rw [eq_comm, eq_comm (a := mergeAdjacent c.mesh x.overflow)]

/-- A projection deals the axes of the dimension out to its factors. -/
structure Dealt (c : Comparison p o r operand value reference) (after : Projection)
    (fs : List Nat) (part : List (Nat × FactorSharding)) : Prop where
  dealOut_eq : ∃ closed, TensorFactors.dealOut c.mesh r closed fs (c.joined fs) = .ok part
  keys : part.map (·.1) = fs
  factor?_eq : ∀ e ∈ part, after.factor? ⟨.operand, operand⟩ e.1 = some e.2
  known : ∀ f ∈ fs, ∃ z, c.factor? f = some z
  valid : ∀ f ∈ fs, AllValid c.mesh (c.want f).all

namespace Dealt

variable {after : Projection} {fs : List Nat} {part : List (Nat × FactorSharding)}

/-- Factors are read back if the parts of the dimension are what is meant. -/
theorem readsBack_iff (h : c.Dealt after fs part) (S : Nat → Prop) :
    (∀ f ∈ fs, S f → c.ReadsBack after f) ↔
      ∀ e ∈ part, S e.1 → (c.want e.1).Same c.mesh (.ofFactor e.2) := by
  rw [← h.keys, List.forall_mem_map]
  refine forall₂_congr fun e he => ?_
  simp [ReadsBack, h.factor?_eq e he]

theorem readsBack_iff_served (h : c.Dealt after fs part) (S : Nat → Prop) :
    (∀ f ∈ fs, S f → c.ReadsBack after f) ↔ Served c.mesh r c.want S fs (c.joined fs) := by
  obtain ⟨closed, hpart⟩ := h.dealOut_eq
  have hall : AllValid c.mesh (c.joined fs) := AllValid.mergeAdjacent fun a ha => by
    obtain ⟨f, hf, haf⟩ := List.mem_flatMap.1 ha
    exact h.valid f hf a haf
  rw [← TensorFactors.same_dealOut_iff_served h.valid hall (separated_mergeAdjacent _) hpart,
    ← h.readsBack_iff]

theorem agrees_iff_served (h : c.Dealt after fs part) :
    (∀ f ∈ fs, c.Shared f → c.Agrees after f) ↔
      Served c.mesh r c.want c.Shared fs (c.joined fs) := by
  rw [← h.readsBack_iff_served]
  exact forall₂_congr fun f hf => forall_congr' fun hs => agrees_iff hs (h.known f hf)

theorem readsBack_iff_filled (h : c.Dealt after fs part) :
    (∀ f ∈ fs, c.ReadsBack after f) ↔ Filled c.mesh r c.want fs := by
  obtain ⟨closed, hpart⟩ := h.dealOut_eq
  rw [← TensorFactors.same_dealOut_iff h.valid rfl hpart]
  simpa using h.readsBack_iff fun _ => True

end Dealt
end Comparison

theorem exists_ofShardings {sig : Signature} {t : TensorSharding}
    (hrule : r.verify sig = .ok ()) (hs : s.Valid m) (ht : t.Valid m) (n k n' k' : Nat) :
    ∃ q, Projection.ofShardings m r (only n k s) (only n' k' t) = .ok q := by
  have hside : ∀ (side : Side) (n k : Nat) (s : TensorSharding), s.Valid m →
      ∃ ts, Projection.projectAll m r (r.mappings side) (only n k s) = .ok ts := by
    intro side n k s hs
    obtain ⟨hcount, hmaps⟩ := Rule.maps_of_verify hrule side
    refine Projection.exists_projectAll fun i mapping hm => ?_
    have hi : i < (sig.shapes side).length := hcount ▸ (List.getElem?_eq_some_iff.1 hm).1
    have hknown := (hmaps i mapping _ hm (List.getElem?_eq_getElem hi)).known
    refine TensorFactors.exists_project (fun x hx => ?_) hknown
    rw [getElem?_only n k s i x hx]
    exact hs.allValid_dims
  obtain ⟨xs, hxs⟩ := hside .operand n k s hs
  obtain ⟨ys, hys⟩ := hside .result n' k' t ht
  simp only [Rule.mappings] at hxs hys
  exact ⟨⟨xs, ys⟩, by simp only [Projection.ofShardings, hxs, hys, bind, Except.bind]; rfl⟩

/-- The sharding that is expected for an operand can be projected, and each of its dimensions
is dealt out to its factors. -/
theorem exists_dealt (hvalid : p.values.forM (Import.checkValue p) = .ok ())
    (hrule : r.verify (p.signatureOf o) = .ok ()) (hvalue : o.operands[operand]? = some value)
    (h : expectation p o r operand value = .ok (some (expected, reference))) :
    ∃ (c : Comparison p o r operand value reference) (after : Projection),
      Projection.ofShardings c.mesh r (only o.operands.length operand expected)
        (only o.results.length c.index c.target) = .ok after ∧
      ∀ fs ∈ c.operandMapping.dims, ∃ part, c.Dealt after fs part := by
  obtain ⟨c, dims, hdims, rfl, hvalidate⟩ := exists_comparison h
  have hc := c.checked hvalid hrule hvalue
  obtain ⟨hrank, hexpected⟩ := TensorSharding.validate_eq_ok_iff.1 hvalidate
  obtain ⟨after, hafter⟩ := exists_ofShardings hrule hexpected hc.target o.operands.length
    operand o.results.length c.index
  obtain ⟨z, hz⟩ := TensorFactors.exists_project
    (s := some { c.source with dims := dims }) (by simpa using hexpected.allValid_dims)
    hc.operandMaps.known
  have hread : after.operands[operand]? = some z :=
    (Projection.projectAll_eq_ok (ofShardings_eq_ok hafter).1).2
      ⟨_, c.operandMapping_eq, by rw [getElem?_only_self _ hc.operand_lt]; exact hz⟩
  refine ⟨c, after, hafter, fun fs hfs => ?_⟩
  obtain ⟨i, hi⟩ := List.mem_iff_getElem?.1 hfs
  have hdim : i < dims.length := by
    have hlen : c.operandMapping.dims.length = dims.length :=
      hc.operandMaps.rank.trans hrank.symm
    exact hlen ▸ (List.getElem?_eq_some_iff.1 hi).1
  have hd := List.getElem?_eq_getElem hdim
  have hjoined : dims[i].axes = c.joined fs := by
    rw [Comparison.expectedDims_eq hdims hd, Nat.zero_add, Mapping.factorsOf,
      List.getD_eq_getElem?_getD, hi]
    rfl
  obtain ⟨part, hpart, hlookup⟩ :=
    TensorFactors.factor?_project hexpected.allValid_dims hc.operandMaps.nodup hz hi hd
  have hmem := fun f (hf : f ∈ fs) => List.mem_flatten.2 ⟨fs, hfs, hf⟩
  exact ⟨part,
    { dealOut_eq := ⟨_, hjoined ▸ hpart⟩
      keys := (TensorFactors.dealOut_spec
        (hexpected.allValid_dims _ (List.getElem_mem hdim)) hpart).1
      factor?_eq := by
        simpa [Projection.factor?, Projection.tensor?, Projection.tensors, hread] using hlookup
      known := fun f hf => (hc.exists_factor? (hmem f hf)).imp fun _ hz => hz.1
      valid := fun f hf => hc.allValid_want (hmem f hf) }⟩

/-- In a dimension of an operand, the expectation gives each factor that the operand shares
with the reference result what that has for it exactly if these factors are served. It gives
all factors what is meant for them exactly if they are filled. -/
theorem agrees_expectation_iff (hvalid : p.values.forM (Import.checkValue p) = .ok ())
    (hrule : r.verify (p.signatureOf o) = .ok ()) (hvalue : o.operands[operand]? = some value)
    (h : expectation p o r operand value = .ok (some (expected, reference))) :
    ∃ (c : Comparison p o r operand value reference) (after : Projection),
      Projection.ofShardings c.mesh r (only o.operands.length operand expected)
        (only o.results.length c.index c.target) = .ok after ∧
      ∀ fs ∈ c.operandMapping.dims,
        ((∀ f ∈ fs, c.Shared f → c.Agrees after f) ↔
          Served c.mesh r c.want c.Shared fs (c.joined fs)) ∧
        ((∀ f ∈ fs, c.Shared f → c.Agrees after f) ∧
            (∀ f ∈ fs, ¬ c.Shared f → c.ReadsBack after f) ↔
          Filled c.mesh r c.want fs) := by
  obtain ⟨c, after, hafter, hdims⟩ := exists_dealt hvalid hrule hvalue h
  refine ⟨c, after, hafter, fun fs hfs => ?_⟩
  obtain ⟨part, hpart⟩ := hdims fs hfs
  refine ⟨hpart.agrees_iff_served, ?_⟩
  rw [← hpart.readsBack_iff_filled]
  constructor
  · rintro ⟨hshared, hother⟩ f hf
    by_cases hs : c.Shared f
    · exact (Comparison.agrees_iff hs (hpart.known f hf)).1 (hshared f hf hs)
    · exact hother f hf hs
  · intro hback
    exact ⟨fun f hf hs => (Comparison.agrees_iff hs (hpart.known f hf)).2 (hback f hf),
      fun f hf _ => hback f hf⟩

section reshape

/-- A reshape that cuts a dimension of size 32 in two. -/
def reshapeRule : Rule := .ofSizes [8, 4] [⟨[[0, 1]]⟩] [⟨[[0], [1]]⟩]

def reshapeOperation : Operation :=
  ⟨"stablehlo.reshape", [0], [1], [], some reshapeRule⟩

def reshapeSource : TensorSharding := .ofDims "mesh" [.ofAxes [] true]

def reshapeTarget : TensorSharding :=
  .ofDims "mesh" [.ofAxes [.full "x"] true, .ofAxes [.full "y"] true]

/-- What the reshape expects of its operand: both axes of its result. -/
def reshapeExpected : TensorSharding :=
  .ofDims "mesh" [.ofAxes [.full "x", .full "y"] true]

def reshape (size : Nat) (h : 0 < size) : Program where
  meshes := [("mesh", .grid size 2 h Nat.two_pos)]
  values := [⟨[32], some reshapeSource, none⟩, ⟨[8, 4], some reshapeTarget, some 0⟩]
  operations := [reshapeOperation]
  arguments := [0]
  outputs := [1]
  groups := []

/-- The result gives each factor its axis, and the operand none. -/
def reshapeComparison (size : Nat) (h : 0 < size) :
    Comparison (reshape size h) reshapeOperation reshapeRule 0 0 1 where
  mesh := .grid size 2 h Nat.two_pos
  source := reshapeSource
  target := reshapeTarget
  index := 0
  operandMapping := ⟨[[0, 1]]⟩
  resultMapping := ⟨[[0], [1]]⟩
  before := ⟨[⟨[(0, ⟨[], true, false, []⟩), (1, ⟨[], true, true, []⟩)], [], []⟩],
    [⟨[(0, ⟨[.full "x"], true, true, []⟩), (1, ⟨[.full "y"], true, true, []⟩)], [], []⟩]⟩
  operandFactors := ⟨[(0, ⟨[], true, false, []⟩), (1, ⟨[], true, true, []⟩)], [], []⟩
  resultFactors :=
    ⟨[(0, ⟨[.full "x"], true, true, []⟩), (1, ⟨[.full "y"], true, true, []⟩)], [], []⟩
  mesh_eq := rfl
  source_eq := rfl
  target_eq := rfl
  operandMapping_eq := rfl
  resultMapping_eq := rfl
  before_eq := rfl
  operandFactors_eq := rfl
  resultFactors_eq := rfl

/-- An axis of size 8 fills the major factor, so both factors are read back. -/
theorem agrees_expectation_iff_reshape :
    ∃ (c : Comparison (reshape 8 (by decide)) reshapeOperation reshapeRule 0 0 1)
      (after : Projection),
      expectation (reshape 8 (by decide)) reshapeOperation reshapeRule 0 0
        = .ok (some (reshapeExpected, 1)) ∧
      Projection.ofShardings c.mesh reshapeRule (only 1 0 reshapeExpected)
        (only 1 c.index c.target) = .ok after ∧
      ∀ f ∈ [0, 1], c.Shared f ∧ c.Agrees after f := by
  have hexpectation : expectation (reshape 8 (by decide)) reshapeOperation reshapeRule 0 0
      = .ok (some (reshapeExpected, 1)) := eq_ok_of_toOption (by decide +kernel)
  obtain ⟨c, after, hafter, h⟩ := agrees_expectation_iff (eq_ok_of_toOption (by decide +kernel))
    (eq_ok_of_toOption (by decide +kernel)) rfl hexpectation
  obtain rfl := Subsingleton.elim c (reshapeComparison 8 (by decide))
  have hfilled : Filled (.grid 8 2 (by decide) Nat.two_pos) reshapeRule
      (reshapeComparison 8 (by decide)).want [0, 1] :=
    ⟨⟨⟨[.full "x"], [], []⟩, eq_ok_of_toOption (by decide +kernel), by decide, rfl⟩,
      .inl ⟨by decide, rfl⟩, rfl⟩
  have hshared : ∀ f ∈ [0, 1], (reshapeComparison 8 (by decide)).Shared f := by
    simp only [List.forall_mem_cons]
    exact ⟨⟨rfl, rfl, rfl⟩, ⟨rfl, rfl, rfl⟩, by simp⟩
  have hagrees := ((h [0, 1] (by decide)).2.2 hfilled).1
  exact ⟨_, after, hexpectation, hafter, fun f hf => ⟨hshared f hf, hagrees f hf (hshared f hf)⟩⟩

/-- An axis of size 2 does not, and the major factor takes both axes. -/
theorem not_agrees_reshape :
    (reshape 2 (by decide)).values.forM (Import.checkValue (reshape 2 (by decide))) = .ok () ∧
    reshapeRule.verify ((reshape 2 (by decide)).signatureOf reshapeOperation) = .ok () ∧
    expectation (reshape 2 (by decide)) reshapeOperation reshapeRule 0 0
      = .ok (some (reshapeExpected, 1)) ∧
    ∃ (c : Comparison (reshape 2 (by decide)) reshapeOperation reshapeRule 0 0 1)
      (after : Projection),
      Projection.ofShardings c.mesh reshapeRule (only 1 0 reshapeExpected)
        (only 1 c.index c.target) = .ok after ∧
      c.Shared 0 ∧ ¬ c.Agrees after 0 := by
  let both : FactorSharding := ⟨[.full "x", .full "y"], true, false, []⟩
  let operand : TensorFactors := ⟨[(0, both), (1, ⟨[], true, true, []⟩)], [], []⟩
  refine ⟨eq_ok_of_toOption (by decide +kernel), eq_ok_of_toOption (by decide +kernel),
    eq_ok_of_toOption (by decide +kernel), reshapeComparison 2 (by decide),
    ⟨[operand], (reshapeComparison 2 (by decide)).before.results⟩,
    eq_ok_of_toOption (by decide +kernel), ⟨rfl, rfl, rfl⟩, ?_⟩
  rintro ⟨x, y, hx, hy, haxes, -⟩
  cases (show some both = some x from hx)
  cases (show some (FactorSharding.mk [.full "x"] true true []) = some y from hy)
  exact absurd haxes (by decide)

end reshape

end Export
end MeshSharding
