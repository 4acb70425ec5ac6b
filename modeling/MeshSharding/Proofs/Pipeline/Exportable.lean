import MeshSharding.Pipeline
import MeshSharding.Proofs.Pipeline.Restore
import MeshSharding.Proofs.Propagation.Converged

/-! Programs as propagation hands them on to export. What export finishes, and import restores, is
settled again in the directions of every pass, and no operand needs a collective any more. -/
namespace MeshSharding

open Program

namespace Propagator

/-- In each pass the operation propagates, whatever its operands are, in no direction or in the one
of the last pass, or in a narrower one if shardings are closed. -/
def PassesAgree (options : Options) (heuristics : List Heuristic) (o : Operation) : Prop :=
  ∀ d ∈ directions options heuristics, ∀ operands : List Nat,
    d { o with operands := operands } = .none ∨
    d { o with operands := operands } = lastDirection options heuristics o ∨
    options.closesShardings = true ∧
      Narrows o (lastDirection options heuristics o) (d { o with operands := operands })

theorem decide_congr_program {g g' : Propagator} {o : Operation} {r : Rule} {d : Direction}
    {t : ShardingTable} (hmeshes : g'.program.mesh = g.program.mesh)
    (hstep : g'.factorStep = g.factorStep) : g'.decide o r d t = g.decide o r d t := by
  simp only [decide, hmeshes, hstep]

theorem passThrough_eq (o : Operation) :
    Heuristic.passThrough o = .none ∨ Heuristic.passThrough o = .both := by
  unfold Heuristic.passThrough
  split
  · exact .inr rfl
  · exact .inl rfl

/-- In the last pass of the standard heuristics every operation is propagated in both directions. -/
theorem direction_standard_last (o : Operation) :
    Heuristic.direction Heuristic.standard (Heuristic.standard.length - 1) o = .both := by
  have hdirection : Heuristic.direction Heuristic.standard (Heuristic.standard.length - 1) o
      = (Heuristic.direction Heuristic.standard 1 o).union .both := rfl
  rw [hdirection]
  cases Heuristic.direction Heuristic.standard 1 o <;> rfl

/-- A pass of the standard heuristics leaves out an operation or propagates it in both directions,
but a broadcast may go to its result only. -/
theorem direction_standard {pass : Nat} (hpass : pass < 3) (o : Operation) :
    Heuristic.direction Heuristic.standard pass o = .none ∨
    Heuristic.direction Heuristic.standard pass o = .both ∨
    o.name = "stablehlo.broadcast_in_dim" ∧
      Heuristic.direction Heuristic.standard pass o = .forward := by
  rcases pass with _ | _ | _ | pass
  · exact (passThrough_eq o).imp_right .inl
  · have hdirection : Heuristic.direction Heuristic.standard 1 o
        = (Heuristic.passThrough o).union (Heuristic.broadcastForward o) := rfl
    rw [hdirection, Heuristic.broadcastForward]
    rcases passThrough_eq o with hnone | hboth
    · rw [hnone]
      split
      · rename_i hname
        exact .inr (.inr ⟨hname, rfl⟩)
      · exact .inl rfl
    · rw [hboth]
      split <;> exact .inr (.inl rfl)
  · exact .inr (.inl (direction_standard_last o))
  · omega

theorem passesAgree_standard {options : Options} {o : Operation}
    (hclosed : options.closesShardings = true)
    (hbroadcast : o.name = "stablehlo.broadcast_in_dim" → o.results.length ≤ 1) :
    PassesAgree options Heuristic.standard o := by
  intro d hd operands
  unfold directions at hd
  unfold lastDirection
  cases hpasses : options.byHeuristics with
  | false =>
    simp only [hpasses, Bool.not_false, Bool.true_or, if_true, List.mem_singleton] at hd ⊢
    subst hd
    exact .inr (.inl rfl)
  | true =>
    obtain ⟨pass, hpass, rfl⟩ : ∃ pass < 3, Heuristic.direction Heuristic.standard pass = d := by
      simpa [hpasses, Heuristic.standard] using hd
    rw [if_neg (by simp [Heuristic.standard]), direction_standard_last]
    rcases direction_standard hpass { o with operands := operands } with
      hnone | hboth | ⟨hname, hforward⟩
    · exact .inl hnone
    · exact .inr (.inl hboth)
    · rw [hforward]
      exact .inr (.inr ⟨hclosed, .forward (hbroadcast hname)⟩)

end Propagator

namespace Export

variable {options : Options} {p q : Program} {o x : Operation} {r : Rule}

section congr

theorem referenceResult_congr (hvalues : q.values = p.values) (meshName : String)
    (index : Nat) (results : List Nat) :
    referenceResult q meshName index results = referenceResult p meshName index results := by
  induction results generalizing index with
  | nil => rfl
  | cons v rest ih => simp only [referenceResult, Program.value, hvalues, ih]

theorem expectation_congr (hvalues : q.values = p.values) (hmeshes : q.meshes = p.meshes)
    (o : Operation) (r : Rule) (operand value : Nat) :
    expectation q o r operand value = expectation p o r operand value := by
  simp only [expectation, Program.value, Program.mesh, hvalues, hmeshes,
    referenceResult_congr hvalues]

/-- Mismatches depend on values and meshes, but not on other operations. -/
theorem operandMismatches_congr (hvalues : q.values = p.values) (hmeshes : q.meshes = p.meshes)
    (operation : Nat) (o : Operation) (r : Rule) (operand : Nat) (values : List Nat) :
    operandMismatches options q operation o r operand values
      = operandMismatches options p operation o r operand values := by
  induction values generalizing operand with
  | nil => rfl
  | cons v rest ih =>
    simp only [operandMismatches, expectation_congr hvalues hmeshes, ih, isClosed, sharding?,
      hvalues]
    rfl

theorem Quiet.congr {operation : Nat} (h : Quiet options p operation o r)
    (hvalues : q.values = p.values) (hmeshes : q.meshes = p.meshes) :
    Quiet options q operation o r := by
  obtain ⟨mismatches, hmismatches, hskips⟩ := h
  refine ⟨mismatches, (operandMismatches_congr hvalues hmeshes ..).trans hmismatches,
    fun x hx => ?_⟩
  obtain ⟨source, hsource, s, m, hs, hm, hreshard⟩ := hskips x hx
  refine ⟨source, hsource, s, m, ?_, ?_, hreshard⟩
  · rw [sharding?, hvalues]
    exact hs
  · rw [mesh, hmeshes]
    exact hm

end congr

section repeatable

/-- Resharding gives other axes to a dimension with the factor. -/
def Rewrites (p : Program) (o : Operation) (r : Rule) (f : Nat) : Prop :=
  ∃ (operand value : Nat) (expected : TensorSharding) (reference : Nat)
    (c : Comparison p o r operand value reference) (i : Nat) (d e : DimSharding),
    Expects p o r operand value expected reference ∧ ¬ Skips p value expected ∧
      c.source.dims[i]? = some d ∧ expected.dims[i]? = some e ∧ e.axes ≠ d.axes ∧
      f ∈ c.operandMapping.factorsOf i

/-- What is expected in a program is made explicit if shardings are closed. Resharded operands are
closed, what is expected of them is expected again, and no unsharded tensor has a factor that
resharding gives other axes. -/
structure Repeatable (options : Options) (p : Program) : Prop where
  explicit : ∀ o r j v expected reference, Expects p o r j v expected reference →
    options.closesShardings = true → options.insertsCollectives = true
  closes : options.insertsCollectives = true → ∀ o r j v expected reference,
    Expects p o r j v expected reference → ¬ Skips p v expected → options.closesShardings = true
  recurs : options.insertsCollectives = true → ∀ o r j v expected reference,
    Expects p o r j v expected reference → ¬ Skips p v expected →
    ∀ c : Comparison p o r j v reference, c.Recurs
  apart : options.insertsCollectives = true → ∀ o r f, Rewrites p o r f →
    ∀ t v mapping, o.value? t = some v → p.sharding? v = none → r.mapping? t = some mapping →
    f ∉ mapping.dims.flatten

/-- What insertion makes of a program that is repeatable. -/
structure Inserts (options : Options) (p q : Program) : Prop where
  reshards : options.closesShardings = true → Reshards p q
  eq_self : options.closesShardings = false → q = p

/-- A program as propagation hands it on to export, without the operations of groups. -/
structure Exportable (g : Propagator) (d : Operation → Direction) : Prop where
  fits : g.program.Fits
  operands_lt : ∀ o ∈ g.program.operations, ∀ v ∈ o.operands, v < g.program.values.length
  results_lt : ∀ o ∈ g.program.operations, ∀ v ∈ o.results, v < g.program.values.length
  rules : g.program.RulesVerify
  produced : g.program.withOperations g.program.operations = g.program
  groups : g.program.groups = []
  names : ∀ o ∈ g.program.operations, o.name ≠ Catalogue.groupOperation
  settled : ∀ o ∈ g.program.operations, Propagator.Settled g d g.program.table o


/-- A program can be repeated if all its operations are over sharded tensors, and their results have
the factors of their operands. -/
theorem repeatable_of_sharded (hinserts : options.insertsCollectives = true)
    (hcloses : options.closesShardings = true)
    (hsharded : ∀ o ∈ p.operations, ∀ v ∈ o.operands ++ o.results, (p.sharding? v).isSome)
    (hshared : ∀ o ∈ p.operations, ∀ r ∈ o.rule, ∀ a ∈ r.operands, ∀ b ∈ r.results,
      ∀ f ∈ a.dims.flatten, b.has f = true) : Repeatable options p := by
  refine ⟨fun _ _ _ _ _ _ _ _ => hinserts, fun _ _ _ _ _ _ _ _ _ => hcloses,
    fun _ o r j v expected reference hexpects _ c fs hfs => .inl fun f hf => .inr ?_,
    fun _ o r f hrewrites t v _ hv hnone _ _ => ?_⟩
  · exact hshared o hexpects.1 r hexpects.2.1 _ (List.mem_of_getElem? c.operandMapping_eq) _
      (List.mem_of_getElem? c.resultMapping_eq) f (List.mem_flatten_of_mem hfs hf)
  · obtain ⟨_, _, _, _, _, _, _, _, hexpects, -⟩ := hrewrites
    have hmem : v ∈ o.operands ++ o.results := by
      obtain ⟨side, j⟩ := t
      cases side with
      | operand => exact List.mem_append_left _ (List.mem_of_getElem? hv)
      | result => exact List.mem_append_right _ (List.mem_of_getElem? hv)
    have := hsharded o hexpects.1 v hmem
    rw [hnone] at this
    cases this

theorem Inserts.fits (h : Inserts options p q) (hp : p.Fits) : q.Fits := by
  cases hclosed : options.closesShardings with
  | true => exact (h.reshards hclosed).fits
  | false => exact h.eq_self hclosed ▸ hp

theorem Inserts.groups (h : Inserts options p q) (hp : p.groups = []) : q.groups = [] := by
  cases hclosed : options.closesShardings with
  | true => exact (h.reshards hclosed).groups.trans hp
  | false => exact h.eq_self hclosed ▸ hp

theorem Inserts.produced (h : Inserts options p q) (hp : p.withOperations p.operations = p) :
    q.withOperations q.operations = q := by
  cases hclosed : options.closesShardings with
  | true => exact (h.reshards hclosed).produced
  | false => exact h.eq_self hclosed ▸ hp

end repeatable

section reuses

theorem Stands.shapeOf_eq (h : Reshards p q) {j v v' : Nat} (hv : v < p.values.length)
    (hstands : Stands p q o j v v') : q.shapeOf v' = p.shapeOf v := by
  rcases hstands with ⟨rfl, -⟩ | ⟨_, _, _, -, -, -, hshape, -⟩
  · exact h.shapes _ hv
  · exact hshape

/-- An operation is reused over values of the same shapes. -/
theorem Reuses.signatureOf_eq (hx : Reuses p q o x) (h : Reshards p q)
    (hoperands : ∀ v ∈ o.operands, v < p.values.length)
    (hresults : ∀ v ∈ o.results, v < p.values.length) : q.signatureOf x = p.signatureOf o := by
  obtain ⟨operands, rfl, hlength, hstands⟩ := hx
  have hshapes : operands.map q.shapeOf = o.operands.map p.shapeOf := by
    refine List.ext_getElem? fun j => ?_
    rw [List.getElem?_map, List.getElem?_map]
    cases hv : o.operands[j]? with
    | none =>
      rw [List.getElem?_eq_none_iff, ← hlength, ← List.getElem?_eq_none_iff] at hv
      rw [hv]
      rfl
    | some v =>
      obtain ⟨v', hv', hstand⟩ := hstands j v hv
      rw [hv', Option.map_some, Option.map_some,
        hstand.shapeOf_eq h (hoperands v (List.mem_of_getElem? hv))]
  rw [signatureOf, signatureOf, hshapes,
    List.map_congr_left fun v hv => h.shapes v (hresults v hv)]

/-- The values of a reused operation are the ones it had, or have the sharding that was expected. -/
theorem Reuses.exists_value? (hx : Reuses p q o x) (ho : o ∈ p.operations) (hr : o.rule = some r)
    {t : TensorRef} {v' : Nat} (hv' : x.value? t = some v') :
    ∃ v, o.value? t = some v ∧ (v' = v ∨ ∃ expected reference, t.side = .operand ∧
      Expects p o r t.index v expected reference ∧ ¬ Skips p v expected ∧
      q.sharding? v' = some expected) := by
  obtain ⟨operands, rfl, hlength, hstands⟩ := hx
  obtain ⟨side, j⟩ := t
  cases side with
  | result => exact ⟨v', hv', .inl rfl⟩
  | operand =>
    have hlt : j < o.operands.length := hlength ▸ (List.getElem?_eq_some_iff.1 hv').1
    have hv := List.getElem?_eq_getElem hlt
    obtain ⟨w, hw, hstand⟩ := hstands j _ hv
    cases hw.symm.trans hv'
    refine ⟨_, hv, ?_⟩
    rcases hstand with ⟨rfl, -⟩ | ⟨r', expected, reference, hr', he, hskips, -, hsharding⟩
    · exact .inl rfl
    · cases hr.symm.trans hr'
      exact .inr ⟨expected, reference, rfl, ⟨ho, hr, hv, he⟩, hskips, hsharding⟩

end reuses

section closed

theorem getElem?_table_eq {v : Nat} (hv : v < p.values.length) (hq : v < q.values.length)
    (hshape : q.shapeOf v = p.shapeOf v) (hsharding : q.sharding? v = p.sharding? v) :
    q.table[v]? = p.table[v]? := by
  have hget := List.getElem?_eq_getElem hv
  have hget' := List.getElem?_eq_getElem hq
  rw [shapeOf, shapeOf, hget, hget'] at hshape
  rw [sharding?, sharding?, hget, hget'] at hsharding
  rw [getElem?_table, getElem?_table, hget, hget']
  simp only [Option.map_some, Option.getD_some, Option.bind_some] at hshape hsharding ⊢
  rw [hsharding, Value.rank, Value.rank, hshape]

theorem sharding?_restore (hclosed : options.closesShardings = true) (p : Program) (v : Nat) :
    (restore options p).sharding? v = (p.sharding? v).map TensorSharding.closedLike :=
  (sharding?_closeValues ..).trans (if_pos hclosed)

@[simp] theorem shapeOf_restore (options : Options) (p : Program) (v : Nat) :
    (restore options p).shapeOf v = p.shapeOf v := shapeOf_closeValues ..

@[simp] theorem length_values_restore (options : Options) (p : Program) :
    (restore options p).values.length = p.values.length := by
  unfold restore closeValues
  split
  · exact List.length_map ..
  · rfl

variable {d : Operation → Direction} {g : Propagator}

theorem Exportable.value_lt (h : Exportable g d) (ho : o ∈ g.program.operations) {t : TensorRef}
    {v : Nat} (hv : o.value? t = some v) : v < g.program.values.length := by
  obtain ⟨side, j⟩ := t
  cases side with
  | operand => exact h.operands_lt o ho v (List.mem_of_getElem? hv)
  | result => exact h.results_lt o ho v (List.mem_of_getElem? hv)

/-- An unsharded value is the one that was there. -/
theorem Exportable.unsharded (h : Exportable g d) (hq : Reshards g.program q)
    (hclosed : options.closesShardings = true) (ho : o ∈ g.program.operations)
    (hx : Reuses g.program q o x) (hr : o.rule = some r) {t : TensorRef} {v : Nat}
    (hv : x.value? t = some v) (hnone : (restore options q).sharding? v = none) :
    o.value? t = some v ∧ g.program.sharding? v = none ∧
      (restore options q).table[v]? = g.program.table[v]? := by
  rw [sharding?_restore hclosed, Option.map_eq_none_iff] at hnone
  obtain ⟨v₀, hv₀, rfl | ⟨expected, _, -, -, -, hsharding⟩⟩ := hx.exists_value? ho hr hv
  · have hlt := h.value_lt ho hv₀
    have hbefore := hq.shardings _ hlt
    refine ⟨hv₀, hbefore.symm.trans hnone, getElem?_table_eq hlt ?_ ?_ ?_⟩
    · rw [length_values_restore]
      exact Nat.lt_of_lt_of_le hlt hq.length
    · rw [shapeOf_restore, hq.shapes _ hlt]
    · rw [sharding?_restore hclosed, ← hbefore, hnone]
      rfl
  · rw [hsharding] at hnone
    cases hnone

/-- A sharded value has the axes that were there, except where resharding has given other ones. -/
theorem Exportable.sharded (h : Exportable g d) (hq : Reshards g.program q)
    (hclosed : options.closesShardings = true) (ho : o ∈ g.program.operations)
    (hx : Reuses g.program q o x) (hr : o.rule = some r) {t : TensorRef} {v : Nat}
    {s' : TensorSharding} (hv : x.value? t = some v)
    (hs' : (restore options q).sharding? v = some s') :
    s'.isFullyClosed = true ∧ ∃ v₀ s, o.value? t = some v₀ ∧ g.program.sharding? v₀ = some s ∧
      s'.meshName = s.meshName ∧ ∀ mapping, r.mapping? t = some mapping →
        ∀ (i : Nat) (d d' : DimSharding), s.dims[i]? = some d → s'.dims[i]? = some d' →
          d'.axes = d.axes ∨ ∀ f ∈ mapping.factorsOf i, Rewrites g.program o r f := by
  rw [sharding?_restore hclosed] at hs'
  obtain ⟨s, hs, rfl⟩ := Option.map_eq_some_iff.1 hs'
  have hlike := TensorSharding.closedLike_closedLike s
  refine ⟨by simp [TensorSharding.isFullyClosed, TensorSharding.closedLike,
    TensorSharding.mapDims], ?_⟩
  obtain ⟨v₀, hv₀, rfl | ⟨expected, reference, hside, hexpects, hskips, hsharding⟩⟩ :=
    hx.exists_value? ho hr hv
  · rw [hq.shardings _ (h.value_lt ho hv₀)] at hs
    exact ⟨_, s, hv₀, hs, rfl, fun mapping _ i d d' hd hd' =>
      .inl (TensorSharding.axes_eq_of_closedLike hlike hd hd')⟩
  · cases hs.symm.trans hsharding
    obtain ⟨c, dims, -, heq, -⟩ := exists_comparison hexpects.2.2.2
    refine ⟨v₀, c.source, hv₀, c.source_eq, by rw [heq]; rfl,
      fun mapping hmapping i d d' hd hd' => ?_⟩
    obtain ⟨side, j⟩ := t
    cases hside
    cases (show r.operands[j]? = some mapping from hmapping).symm.trans c.operandMapping_eq
    obtain ⟨e, he⟩ := TensorSharding.exists_dim (TensorSharding.rank_eq_of_closedLike hlike) hd'
    have haxes := TensorSharding.axes_eq_of_closedLike hlike he hd'
    by_cases hsame : e.axes = d.axes
    · exact .inl (haxes.trans hsame)
    · exact .inr fun f hf =>
        ⟨j, v₀, s, reference, c, i, d, e, hexpects, hskips, hd, he, hsame, hf⟩

/-- The operations of the resharded program are over closed shardings, which have other axes only
where resharding has given them. -/
theorem Exportable.closes (h : Exportable g d) (hq : Reshards g.program q)
    (hclosed : options.closesShardings = true) (hrepeat : Repeatable options g.program)
    (ho : o ∈ g.program.operations) (hx : Reuses g.program q o x) (hr : o.rule = some r) :
    Propagator.Closes o x r (Rewrites g.program o r) g.program.table
      (restore options q).table where
  operands := by
    obtain ⟨operands, rfl, hlength, -⟩ := hx
    exact hlength
  results := by
    obtain ⟨operands, rfl, -⟩ := hx
    rfl
  unsharded t v hv hnone := by
    rw [get_table] at hnone ⊢
    exact h.unsharded hq hclosed ho hx hr hv hnone
  sharded t v s' hv hs' := by
    rw [get_table] at hs'
    simp only [get_table]
    exact h.sharded hq hclosed ho hx hr hv hs'
  kept t v mapping hv hnone hmapping f hf hrewrites := by
    have hinserts : options.insertsCollectives = true := by
      obtain ⟨_, _, _, _, _, _, _, _, hexpects, -⟩ := hrewrites
      exact hrepeat.explicit _ _ _ _ _ _ hexpects hclosed
    rw [get_table] at hnone
    obtain ⟨hv₀, hunsharded, -⟩ := h.unsharded hq hclosed ho hx hr hv hnone
    exact hrepeat.apart hinserts o r f hrewrites t v mapping hv₀ hunsharded hmapping hf

end closed

section again

variable {g : Propagator} {heuristics : List Heuristic}

theorem Exportable.values (h : Exportable g d) :
    ∀ v ∈ g.program.values, Import.checkValue g.program v = .ok () := (fits_iff.1 h.fits).1

/-- Open shardings are left as they are. -/
theorem restore_values (hclosed : options.closesShardings = false) :
    (restore options p).values = p.values := by
  rw [restore, closeValues, hclosed]
  rfl

theorem fits_restore (options : Options) (h : p.Fits) : (restore options p).Fits :=
  fits_closeValues options (p := { p with operations := p.operations.map (restoreRule options) }) h

theorem signatureOf_restore (options : Options) (p : Program) (o : Operation) :
    (restore options p).signatureOf o = p.signatureOf o :=
  signatureOf_congr (fun _ _ => shapeOf_restore ..) fun _ _ => shapeOf_restore ..

/-- What export is handed on is settled again, with closed shardings, in every pass. -/
theorem Exportable.refused (h : Exportable g (Propagator.lastDirection g.options heuristics))
    (hq : Reshards g.program q) (hclosed : g.options.closesShardings = true)
    (hrepeat : Repeatable g.options g.program) (ho : o ∈ g.program.operations)
    (hx : Reuses g.program q o x) (hr : o.rule = some r) {e : Direction} (he : e ≠ .none)
    (hnarrows : Propagator.Narrows o (Propagator.lastDirection g.options heuristics o) e) :
    Propagator.Refused { g with program := restore g.options q } x r e
      (restore g.options q).table := by
  have hlast : Propagator.lastDirection g.options heuristics o ≠ .none := by
    intro hnone
    rw [hnone] at hnarrows
    cases hnarrows
    exact he rfl
  have hmeshes : (restore g.options q).mesh = g.program.mesh := by
    rw [restore, closeValues_mesh]
    funext name
    rw [mesh, mesh, ← hq.meshes]
  refine Propagator.Closes.Refused.closes (h.settled o ho r hr hlast)
    (h.closes hq hclosed hrepeat ho hx hr) hnarrows hmeshes rfl (sound_table h.values)
    (sound_table (fits_iff.1 (fits_restore _ hq.fits)).1) (h.rules o ho r hr) ?_
  rw [signatureOf_restore, hx.signatureOf_eq hq (h.operands_lt o ho) (h.results_lt o ho)]
  exact h.rules o ho r hr

/-- With open shardings export only drops rules, so all is settled as it was. -/
theorem Exportable.refused_of_open
    (h : Exportable g (Propagator.lastDirection g.options heuristics))
    (hopen : g.options.closesShardings = false) (ho : o ∈ g.program.operations)
    (hr : o.rule = some r)
    (hdirection : Propagator.lastDirection g.options heuristics o ≠ .none) :
    Propagator.Refused { g with program := restore g.options g.program } o r
      (Propagator.lastDirection g.options heuristics o) (restore g.options g.program).table := by
  obtain ⟨decision, hdecide, hrefused⟩ := h.settled o ho r hr hdirection
  have htable : (restore g.options g.program).table = g.program.table := by
    rw [table, restore_values hopen]
    rfl
  have hsame : Propagator.decide { g with program := restore g.options g.program } o r
      (Propagator.lastDirection g.options heuristics o) g.program.table
      = g.decide o r (Propagator.lastDirection g.options heuristics o) g.program.table :=
    Propagator.decide_congr_program (closeValues_mesh ..) rfl
  rw [htable]
  exact ⟨decision, hsame.trans hdecide, hrefused⟩

/-- Propagation leaves what export has finished, and import restored, as it is. -/
theorem Exportable.propagate_restore
    (h : Exportable g (Propagator.lastDirection g.options heuristics))
    (hq : Inserts g.options g.program q)
    (hrepeat : Repeatable g.options g.program)
    (hpasses : ∀ o ∈ g.program.operations, Propagator.PassesAgree g.options heuristics o)
    (hn : q.operations.length ≤ wordBound) :
    ∃ provenance, Admission.propagate { g with program := restore g.options q } heuristics
      = .ok (restore g.options q, provenance) := by
  obtain ⟨hvalues, hunranked⟩ := fits_iff.1 (fits_restore g.options (hq.fits h.fits))
  refine Admission.propagate_eq_self (g := { g with program := restore g.options q }) hvalues
    (fun v s hs => hunranked v s (by rwa [← get_table])) ?_ fun d hd x hx r hr hdirection => ?_
  · change (restore g.options q).operations.length ≤ _
    rwa [restore_operations, List.length_map]
  · change x ∈ (restore g.options q).operations at hx
    rw [restore_operations] at hx
    obtain ⟨y, hy, rfl⟩ := List.mem_map.1 hx
    have hself := restoreRule_eq_self hr
    rw [hself] at hr hdirection ⊢
    cases hclosed : g.options.closesShardings with
    | true =>
      have hreshards := hq.reshards hclosed
      rcases hreshards.operations y hy with ⟨c, a, b, rfl⟩ | ⟨o, ho, hreuses⟩
      · cases hr
      · obtain ⟨operands, rfl, -⟩ := id hreuses
        refine h.refused hreshards hclosed hrepeat ho hreuses hr hdirection ?_
        rcases hpasses o ho d hd operands with hnone | hlast | ⟨-, hnarrows⟩
        · exact absurd hnone hdirection
        · rw [hlast]
          exact .same _
        · exact hnarrows
    | false =>
      cases hq.eq_self hclosed
      have hagree : d y = Propagator.lastDirection g.options heuristics y := by
        rcases hpasses y hy d hd y.operands with hnone | hlast | ⟨hclosed', -⟩
        · exact absurd hnone hdirection
        · exact hlast
        · rw [hclosed] at hclosed'
          cases hclosed'
      rw [hagree] at hdirection ⊢
      exact h.refused_of_open hclosed hy hr hdirection

theorem Exportable.place (h : Exportable g d) (ho : o ∈ g.program.operations)
    (hr : o.rule = some r) {j v : Nat} (hv : o.operands[j]? = some v) :
    Place g.program o r j v :=
  ⟨h.values, h.rules o ho r hr, hv, h.operands_lt o ho v (List.mem_of_getElem? hv),
    h.results_lt o ho⟩

theorem Exportable.place_restore (h : Exportable g d) (hq : Reshards g.program q)
    (ho : o ∈ g.program.operations) (hx : Reuses g.program q o x) (hr : o.rule = some r)
    {j v v' : Nat} (hv : o.operands[j]? = some v) (hv' : x.operands[j]? = some v')
    (hstand : Stands g.program q o j v v') : Place (restore options q) x r j v' := by
  refine ⟨(fits_iff.1 (fits_restore options hq.fits)).1, ?_, hv', ?_, fun w hw => ?_⟩
  · rw [signatureOf_restore, hx.signatureOf_eq hq (h.operands_lt o ho) (h.results_lt o ho)]
    exact h.rules o ho r hr
  · rw [length_values_restore]
    rcases hstand with ⟨rfl, -⟩ | ⟨_, _, _, -, -, -, -, hs⟩
    · exact Nat.lt_of_lt_of_le (h.operands_lt o ho v' (List.mem_of_getElem? hv)) hq.length
    · exact lt_of_sharding? hs
  · obtain ⟨operands, rfl, -⟩ := hx
    rw [length_values_restore]
    exact Nat.lt_of_lt_of_le (h.results_lt o ho w hw) hq.length

/-- Values that were there keep their shardings up to closing. -/
theorem closedLike_restore (hq : Reshards p q) (hclosed : options.closesShardings = true) {v : Nat}
    (hv : v < p.values.length) :
    ((restore options q).sharding? v).map TensorSharding.closedLike
      = (p.sharding? v).map TensorSharding.closedLike := by
  rw [sharding?_restore hclosed, hq.shardings v hv, Option.map_map]
  exact congrArg (Option.map · _) (funext TensorSharding.closedLike_closedLike)

theorem Exportable.mirrors_restore (h : Exportable g d) (hq : Reshards g.program q)
    (hclosed : options.closesShardings = true) (ho : o ∈ g.program.operations)
    (hx : Reuses g.program q o x) : Mirrors g.program (restore options q) o x := by
  obtain ⟨operands, rfl, -⟩ := hx
  refine ⟨?_, rfl, fun v hv => closedLike_restore hq hclosed (h.results_lt o ho v hv)⟩
  rw [restore, closeValues_mesh]
  funext name
  rw [mesh, mesh, ← hq.meshes]

/-- Operands that have been resharded, and those that have not, rest over closed shardings. -/
theorem Exportable.rests (h : Exportable g d) (hq : Reshards g.program q)
    (hclosed : options.closesShardings = true) (hrepeat : Repeatable options g.program)
    (ho : o ∈ g.program.operations) (hx : Reuses g.program q o x) (hr : o.rule = some r)
    {j v' : Nat} (hv' : x.operands[j]? = some v') :
    expectation (restore options q) x r j v' = .ok none ∨
      options.insertsCollectives = true ∧ Rests (restore options q) x r j v' := by
  have hmirrors := h.mirrors_restore hq hclosed ho hx
  obtain ⟨v, hv, hstand⟩ : ∃ v, o.operands[j]? = some v ∧ Stands g.program q o j v v' := by
    obtain ⟨operands, rfl, hlength, hstands⟩ := hx
    have hlt : j < o.operands.length := hlength ▸ (List.getElem?_eq_some_iff.1 hv').1
    have hv := List.getElem?_eq_getElem hlt
    obtain ⟨w, hw, hstand⟩ := hstands j _ hv
    cases hw.symm.trans hv'
    exact ⟨_, hv, hstand⟩
  have hlt := h.operands_lt o ho v (List.mem_of_getElem? hv)
  have hplace := h.place ho hr hv
  have hplace' : Place (restore options q) x r j v' :=
    h.place_restore hq ho hx hr hv hv' hstand
  have hshape : (restore options q).shapeOf v' = g.program.shapeOf v :=
    (shapeOf_restore ..).trans (hstand.shapeOf_eq hq hlt)
  rcases hstand with ⟨rfl, hrests⟩ | ⟨r', expected, reference, hr', he, hskips, -, hs⟩
  · have hsame := closedLike_restore hq hclosed hlt
    rcases hrests r hr with hnone | ⟨expected, reference, he, hskips⟩
    · exact .inl (expectation_eq_none hmirrors hplace hplace' hshape hsame hnone)
    · exact .inr ⟨hrepeat.explicit o r j _ expected reference ⟨ho, hr, hv, he⟩ hclosed,
        rests_closedLike hmirrors hplace hplace' hshape hsame
          (.inr ⟨expected, reference, he, hskips⟩)⟩
  · cases hr.symm.trans hr'
    have hexpects : Expects g.program o r j v expected reference := ⟨ho, hr, hv, he⟩
    have hs' : (restore options q).sharding? v' = some expected.closedLike := by
      rw [sharding?_restore hclosed, hs]
      rfl
    exact .inl (expectation_reshard hmirrors hplace hplace' he hs'
      (TensorSharding.closedLike_closedLike expected)
      (hrepeat.recurs (hrepeat.explicit _ _ _ _ _ _ hexpects hclosed) _ _ _ _ _ _ hexpects hskips))

theorem Exportable.names_restore (h : Exportable g d)
    (hq : Inserts options g.program q) :
    ∀ o ∈ q.operations, o.name ≠ Catalogue.groupOperation := by
  intro x hx
  cases hclosed : options.closesShardings with
  | true =>
    rcases (hq.reshards hclosed).operations x hx with ⟨c, a, b, rfl⟩ | ⟨o, ho, operands, rfl, -⟩
    · cases c <;> simp [collectiveOperation, Collective.operationName, Catalogue.groupOperation]
    · exact h.names o ho
  | false =>
    rw [hq.eq_self hclosed] at hx
    exact h.names x hx

/-- If shardings stay open, no operation has anything inserted. -/
theorem Exportable.quiet {reshards : List InsertedReshard} (hrepeat : Repeatable options g.program)
    (hopen : options.closesShardings = false)
    (hinsert : insertReshards options g.program = .ok (q, reshards)) {i : Nat}
    (ho : g.program.operations[i]? = some o) (hr : o.rule = some r) :
    Quiet options g.program i o r := by
  obtain ⟨mismatches, hmismatches, -⟩ := bind_eq_ok_iff.1 hinsert
  obtain ⟨here, hhere, -⟩ := exists_subset_mismatchesFrom hmismatches ho hr
  rw [Nat.zero_add] at hhere
  refine quiet_of_operandMismatches hhere fun hinserts j v expected reference hv he => ?_
  by_contra hskips
  have hclosed := hrepeat.closes hinserts o r j v expected reference
    ⟨List.mem_of_getElem? ho, hr, hv, he⟩ hskips
  rw [hopen] at hclosed
  cases hclosed

/-- Nothing is inserted any more. -/
theorem Exportable.insertReshards_restore {reshards : List InsertedReshard} (h : Exportable g d)
    (hq : Inserts options g.program q)
    (hrepeat : Repeatable options g.program)
    (hinsert : insertReshards options g.program = .ok (q, reshards)) :
    insertReshards options (withoutGroups (restore options q))
      = .ok (restore options q, []) := by
  have hrestored := produced_restore options (hq.produced h.produced)
  rw [withoutGroups_eq_self hrestored fun o ho => by
    rw [restore_operations] at ho
    obtain ⟨x, hx, rfl⟩ := List.mem_map.1 ho
    rw [name_restoreRule]
    exact h.names_restore hq x hx]
  refine insertReshards_eq_self hrestored fun i o r ho hr => ?_
  rw [restore_operations, List.getElem?_map] at ho
  obtain ⟨x, hx, rfl⟩ := Option.map_eq_some_iff.1 ho
  have hself := restoreRule_eq_self hr
  rw [hself] at hr ⊢
  cases hclosed : options.closesShardings with
  | true =>
    have hreshards := hq.reshards hclosed
    rcases hreshards.operations x (List.mem_of_getElem? hx) with ⟨c, a, b, rfl⟩ | ⟨o, ho, hreuses⟩
    · cases hr
    · have hrule : o.rule = some r := by
        obtain ⟨operands, rfl, -⟩ := hreuses
        exact hr
      exact quiet_of_rests fun j v hv =>
        h.rests hreshards hclosed hrepeat ho hreuses hrule hv
  | false =>
    cases hq.eq_self hclosed
    have hquiet := Exportable.quiet hrepeat hclosed hinsert hx hr
    refine hquiet.congr (restore_values hclosed) ?_
    rw [restore, closeValues, hclosed]
    rfl

end again

section first

variable {g : Propagator} {d : Operation → Direction} {inserted : List InsertedReshard}

/-- If shardings are closed, every operand rests or is resharded, and else nothing is inserted. -/
theorem Exportable.inserts (h : Exportable g d) (hrepeat : Repeatable options g.program)
    (hinsert : insertReshards options g.program = .ok (q, inserted)) :
    Inserts options g.program q := by
  refine ⟨fun hclosed => reshards_insertReshards h.fits h.operands_lt h.produced
    (fun o ho r j v hr hv => ?_) (fun o r j v expected reference he =>
      hrepeat.explicit o r j v expected reference he hclosed) hinsert, fun hopen => ?_⟩
  · rcases (h.place ho hr hv).expectation_spec with ⟨hnone, -⟩ | ⟨_, _, _, -, hsome⟩
    · exact ⟨_, hnone⟩
    · exact ⟨_, hsome⟩
  · cases hinsert.symm.trans (insertReshards_eq_self h.produced fun i o r ho hr =>
      Exportable.quiet hrepeat hopen hinsert ho hr)
    rfl

theorem RuleReturns.congr {c : Catalogue} (h : RuleReturns options c p o) (hname : x.name = o.name)
    (hattributes : x.attributes = o.attributes) (hrule : x.rule = o.rule)
    (hsignature : q.signatureOf x = p.signatureOf o) : RuleReturns options c q x := by
  rwa [RuleReturns, hname, hattributes, hrule, hsignature]

/-- Rules come back for the resharded program as well. -/
theorem Exportable.ruleReturns_of_reshards {c : Catalogue} (h : Exportable g d)
    (hq : Inserts options g.program q)
    (hrules : ∀ o ∈ g.program.operations, RuleReturns options c g.program o) :
    ∀ x ∈ q.operations, RuleReturns options c q x := by
  intro x hx
  cases hclosed : options.closesShardings with
  | true =>
    have hreshards := hq.reshards hclosed
    rcases hreshards.operations x hx with ⟨c, a, b, rfl⟩ | ⟨o, ho, hreuses⟩
    · exact .inl (List.contains_iff_mem.2 c.operationName_mem)
    · have hsignature := hreuses.signatureOf_eq hreshards (h.operands_lt o ho) (h.results_lt o ho)
      obtain ⟨operands, rfl, -⟩ := hreuses
      exact (hrules o ho).congr rfl rfl rfl hsignature
  | false =>
    rw [hq.eq_self hclosed] at hx ⊢
    exact hrules x hx

end first

end Export
end MeshSharding
