import MeshSharding.Proofs.Rule.Reshape

/-! Which reshapes have a rule. Wherever the walk over both shapes ends, the links of a dimension
make up its size, and a dimension of size 1 gets a factor of its own. A dimension of size 0 is
passed over like one of size 1, but its factor of size 1 does not verify. -/
namespace MeshSharding

theorem Sizes.product_eq_zero_iff {sizes : List Nat} : product sizes = 0 ↔ 0 ∈ sizes := by
  induction sizes with
  | nil => simp
  | cons size sizes ih => rw [product_cons, Nat.mul_eq_zero, ih, List.mem_cons, eq_comm]

namespace Rule

/-- Each dimension has factors, whose sizes multiply to its size. -/
def Covers (r : Rule) (mapping : Mapping) (shape : Shape) : Prop :=
  List.Forall₂ (fun fs size => fs ≠ [] ∧ r.productOf fs = size) mapping.dims shape

theorem covers_of_maps {r : Rule} {mapping : Mapping} {shape : Shape} (h : r.Maps mapping shape)
    (hproduct : ∀ (dim : Nat) (fs : List Nat) (size : Nat), mapping.dims[dim]? = some fs →
      shape[dim]? = some size → r.productOf fs = size) : r.Covers mapping shape := by
  refine List.forall₂_iff_get.2 ⟨h.rank, fun dim hdims hshape => ?_⟩
  exact ⟨h.mapped _ (List.getElem_mem hdims),
    hproduct dim _ _ (List.getElem?_eq_getElem hdims) (List.getElem?_eq_getElem hshape)⟩

theorem isExempt_eq_false {r : Rule} {k size : Nat} {blocked : Bool}
    (h : r.factors[k]? = some ⟨size, .passThrough, blocked⟩) : r.isExempt [k] = false := by
  simp [isExempt, h]

end Rule

namespace Reshape

variable {input output shape : Shape} {t : TensorRef} {mapping : Mapping} {dim size : Nat}
  {fs : List Nat}

/-- The tensors of a reshape. -/
theorem exists_shape (h : (draft input output).finish.mapping? t = some mapping) :
    ∃ shape, (Signature.shapes ⟨[input], [output]⟩ t.side)[t.index]? = some shape ∧
      Carries (draft input output).finish t.side (raised shape)
        (links (dimsOf input) (dimsOf output)) mapping ∧
      (draft input output).Completes
        ⟨linkedDims t.side (links (dimsOf input) (dimsOf output)) shape⟩ mapping := by
  obtain ⟨before, hbefore, hcompletes⟩ := Draft.exists_completes h
  obtain ⟨-, mi, mo, hmi, hmo, hin, hout, -⟩ := carries_raised input output
  rw [draft_eq (matching_raised input output).one_lt_size] at hbefore
  obtain ⟨side, index⟩ := t
  cases side with
  | operand =>
    rw [Rule.mapping?, Rule.mappings, hmi] at h
    cases index with
    | zero =>
      cases h
      cases hbefore
      exact ⟨input, rfl, hin, hcompletes⟩
    | succ index => cases h
  | result =>
    rw [Rule.mapping?, Rule.mappings, hmo] at h
    cases index with
    | zero =>
      cases h
      cases hbefore
      exact ⟨output, rfl, hout, hcompletes⟩
    | succ index => cases h

/-- A dimension is the product of its factors, but for a dimension of size 0. -/
theorem productOf_eq (h : (draft input output).finish.mapping? t = some mapping)
    (hs : (Signature.shapes ⟨[input], [output]⟩ t.side)[t.index]? = some shape)
    (hfs : mapping.dims[dim]? = some fs) (hsize : shape[dim]? = some size) :
    (draft input output).finish.productOf fs = max 1 size ∧
      (size = 0 → (draft input output).finish.isExempt fs = false) := by
  obtain ⟨shape', hs', hcarries, hcompletes⟩ := exists_shape h
  cases hs.symm.trans hs'
  set ls := links (dimsOf input) (dimsOf output)
  set r := (draft input output).finish
  have hraised : (raised shape)[dim]? = some (max 1 size) := by
    rw [raised, List.getElem?_map, hsize, Option.map_some]
  have hspan : span t.side (fun d => d = dim) ls = max 1 size :=
    Option.some.inj ((hcarries.size_eq (List.getElem?_eq_some_iff.1 hraised).1).symm.trans hraised)
  have hnumbers : Sizes.product ((numbersOf t.side dim 0 ls).map fun f => (r.sizeOf? f).getD 1)
      = max 1 size :=
    (product_numbersOf fun k l hl => (Nat.zero_add k).symm ▸ hcarries.sizes k l hl).trans hspan
  rcases hcompletes dim fs hfs with ⟨hlinked, -⟩ | ⟨hlinked, k, rfl, -, hfactor⟩
  · obtain rfl := getElem?_linkedDims hlinked
    refine ⟨hnumbers, fun hzero => ?_⟩
    -- a single link would make the dimension larger than 1
    rw [hzero] at hnumbers
    rcases hfactors : numbersOf t.side dim 0 ls with - | ⟨f, - | -⟩
    · rfl
    · have hmem : f ∈ numbersOf t.side dim 0 ls := by rw [hfactors]; exact List.mem_singleton.2 rfl
      obtain ⟨l, hl, -⟩ := mem_numbersOf.1 hmem
      have hlarge := (matching_raised input output).one_lt_size l (List.mem_of_getElem? hl)
      rw [hfactors] at hnumbers
      simp [hcarries.sizes f l hl] at hnumbers
      omega
    · rfl
  · have hnone := getElem?_linkedDims hlinked
    rw [← hnone] at hnumbers
    have hone : r.sizeOf? k = some 1 := by rw [Rule.sizeOf?, hfactor]; rfl
    refine ⟨?_, fun _ => Rule.isExempt_eq_false hfactor⟩
    rw [← hnumbers]
    simp [Rule.productOf, hone]

theorem misfit_iff (h : (draft input output).finish.mapping? t = some mapping)
    (hs : (Signature.shapes ⟨[input], [output]⟩ t.side)[t.index]? = some shape) :
    (draft input output).finish.Misfit mapping.dims shape dim fs size ↔
      mapping.dims[dim]? = some fs ∧ shape[dim]? = some size ∧ size = 0 := by
  constructor
  · rintro ⟨hfs, hsize, hne, -⟩
    rw [(productOf_eq h hs hfs hsize).1] at hne
    exact ⟨hfs, hsize, by omega⟩
  · rintro ⟨hfs, hsize, hzero⟩
    obtain ⟨hproduct, hexempt⟩ := productOf_eq h hs hfs hsize
    exact ⟨hfs, hsize, by omega, hexempt hzero⟩

theorem sound_draft (input output : Shape) :
    (draft input output).Sound ⟨[input], [output]⟩ :=
  List.foldlRecOn _ addLink (Draft.sound_blank _) fun _ h l _ => h.addFactor [l.input] [l.output] _

/-- The rule of a reshape verifies, or the check finds a dimension of size 0. -/
theorem verify_draft (input output : Shape) :
    let r := (draft input output).finish
    let sig : Signature := ⟨[input], [output]⟩
    r.verify sig = .ok () ∨
      ∃ p, sig.size? p = some 0 ∧ r.verify sig = Rule.malformed (.dimSize p.tensor p.dim 1 0) := by
  intro r sig
  refine (Rule.verify_eq_ok_or_misfit (sound_draft input output).maps_finish).imp_right ?_
  rintro ⟨t, mapping, shape, dim, fs, size, hm, hs, hmisfit, herror⟩
  obtain ⟨hfs, hsize, rfl⟩ := (misfit_iff hm hs).1 hmisfit
  rw [(productOf_eq hm hs hfs hsize).1] at herror
  exact ⟨⟨t, dim⟩, Signature.size?_eq_some.2 ⟨shape, hs, hsize⟩, herror⟩

/-- A dimension of size 0 does not verify. -/
theorem ne_zero_of_verify {p : TensorDim}
    (h : (draft input output).finish.verify ⟨[input], [output]⟩ = .ok ())
    (hp : (⟨[input], [output]⟩ : Signature).size? p = some size) : size ≠ 0 := by
  intro hzero
  obtain ⟨shape, hs, hsize⟩ := Signature.size?_eq_some.1 hp
  obtain ⟨hcount, hmaps⟩ := Rule.maps_of_verify h p.tensor.side
  have hm := List.getElem?_eq_getElem (hcount.symm ▸ (List.getElem?_eq_some_iff.1 hs).1)
  have hrank := (hmaps p.tensor.index _ shape hm hs).rank
  have hfs := List.getElem?_eq_getElem (hrank.symm ▸ (List.getElem?_eq_some_iff.1 hsize).1)
  exact Rule.not_misfit_of_verify h hm hs p.dim _ size
    ((misfit_iff hm hs).2 ⟨hfs, hsize, hzero⟩)

theorem covers_of_verify (h : (draft input output).finish.verify ⟨[input], [output]⟩ = .ok ())
    (hm : (draft input output).finish.mapping? t = some mapping)
    (hs : (Signature.shapes ⟨[input], [output]⟩ t.side)[t.index]? = some shape) :
    (draft input output).finish.Covers mapping shape := by
  have hmaps := (Rule.maps_of_verify h t.side).2 t.index mapping shape hm hs
  refine Rule.covers_of_maps hmaps fun dim fs size hfs hsize => ?_
  have hne := ne_zero_of_verify h (p := ⟨t, dim⟩) (Signature.size?_eq_some.2 ⟨shape, hs, hsize⟩)
  rw [(productOf_eq hm hs hfs hsize).1]
  omega

theorem product_eq_zero_of_size? {p : TensorDim} (h : Sizes.product input = Sizes.product output)
    (hp : (⟨[input], [output]⟩ : Signature).size? p = some 0) : Sizes.product input = 0 := by
  obtain ⟨shape, hs, hsize⟩ := Signature.size?_eq_some.1 hp
  have hempty := Sizes.product_eq_zero_iff.2 (List.mem_of_getElem? hsize)
  have hmem := List.mem_of_getElem? hs
  revert hmem
  cases p.tensor.side with
  | operand => exact fun hmem => List.mem_singleton.1 hmem ▸ hempty
  | result => exact fun hmem => h.trans (List.mem_singleton.1 hmem ▸ hempty)

/-- A reshape that keeps the number of elements has a rule that covers both tensors exactly if there
are elements. If there are none, the check refuses a dimension of size 0. -/
theorem exists_ruleFor_iff (attrs : Attributes) (input output : Shape)
    (h : Sizes.product input = Sizes.product output) :
    let sig : Signature := ⟨[input], [output]⟩
    ((∃ r mi mo, Catalogue.builtin.ruleFor "stablehlo.reshape" attrs sig = .ok r ∧
        r.operands = [mi] ∧ r.results = [mo] ∧ r.Covers mi input ∧ r.Covers mo output) ↔
      0 < Sizes.product input) ∧
    (Sizes.product input = 0 → ∃ p, sig.size? p = some 0 ∧
      Catalogue.builtin.ruleFor "stablehlo.reshape" attrs sig
        = Rule.malformed (.dimSize p.tensor p.dim 1 0)) := by
  intro sig
  set r := (draft input output).finish
  have hrule : Catalogue.builtin.ruleFor "stablehlo.reshape" attrs sig
      = r.verify sig >>= fun _ => .ok r := by
    rw [ruleFor_eq, RuleFactory.reshape, if_pos h]
    rfl
  have hempty : Sizes.product input = 0 → r.verify sig ≠ .ok () := fun hzero hverify => by
    obtain ⟨dim, hdim⟩ := List.mem_iff_getElem?.1 (Sizes.product_eq_zero_iff.1 hzero)
    exact ne_zero_of_verify hverify (p := ⟨⟨.operand, 0⟩, dim⟩) hdim rfl
  rcases verify_draft input output with hverify | ⟨p, hp, herror⟩
  · have hpos := Nat.pos_of_ne_zero fun hzero => hempty hzero hverify
    obtain ⟨-, mi, mo, hmi, hmo, -⟩ := carries_raised input output
    have hin : r.mapping? ⟨.operand, 0⟩ = some mi := congrArg (·[0]?) hmi
    have hout : r.mapping? ⟨.result, 0⟩ = some mo := congrArg (·[0]?) hmo
    refine ⟨⟨fun _ => hpos, fun _ => ⟨r, mi, mo, ?_, hmi, hmo, covers_of_verify hverify hin rfl,
      covers_of_verify hverify hout rfl⟩⟩, fun hzero => absurd hzero (Nat.ne_of_gt hpos)⟩
    rw [hrule, hverify]
    rfl
  · have herror : Catalogue.builtin.ruleFor "stablehlo.reshape" attrs sig
        = Rule.malformed (.dimSize p.tensor p.dim 1 0) := by rw [hrule, herror]; rfl
    have hzero := product_eq_zero_of_size? h hp
    refine ⟨⟨?_, fun hpos => absurd hzero (Nat.ne_of_gt hpos)⟩, fun _ => ⟨p, hp, herror⟩⟩
    rintro ⟨_, _, _, hok, -⟩
    cases herror.symm.trans hok

/-- The walk ends inside of a dimension of each tensor. -/
theorem exists_ruleFor_iff_split :
    Sizes.product [8, 1, 9] = Sizes.product [2, 3, 12] ∧
      ∃ r mi mo, Catalogue.builtin.ruleFor "stablehlo.reshape" [] ⟨[[8, 1, 9]], [[2, 3, 12]]⟩
          = .ok r ∧
        r.operands = [mi] ∧ r.results = [mo] ∧ r.Covers mi [8, 1, 9] ∧ r.Covers mo [2, 3, 12] :=
  ⟨rfl, (exists_ruleFor_iff [] [8, 1, 9] [2, 3, 12] rfl).1.2 (by decide)⟩

/-- An empty tensor has no rule that reshapes it to its own shape. -/
theorem not_exists_ruleFor_empty :
    ¬ ∀ (attrs : Attributes) (input output : Shape), Sizes.product input = Sizes.product output →
      ∃ r, Catalogue.builtin.ruleFor "stablehlo.reshape" attrs ⟨[input], [output]⟩ = .ok r := by
  intro h
  obtain ⟨r, hr⟩ := h [] [0] [0] rfl
  have herror : Catalogue.builtin.ruleFor "stablehlo.reshape" [] ⟨[[0]], [[0]]⟩
      = Rule.malformed (.dimSize ⟨.operand, 0⟩ 0 1 0) := by
    rw [ruleFor_eq]
    decide +kernel
  cases herror.symm.trans hr

end Reshape
end MeshSharding
