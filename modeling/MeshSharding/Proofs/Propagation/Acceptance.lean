import MeshSharding.Proofs.Propagation.FixedPoint
import MeshSharding.Proofs.Propagation.Growth
import MeshSharding.Proofs.Propagation.Saturation

/-! Acceptance. The updates of an operation are for different dimensions, and each is for one that
has been lengthened. So each of them is accepted, and those behind it are for dimensions that are
still lengthened. -/
namespace MeshSharding

open AxisList TensorSharding

namespace TensorFactors

variable {m : Mesh} {mapping : Mapping} {s : TensorSharding} {x : TensorFactors} {i : Nat}
  {changed : Nat → Prop}

/-- A dimension that is refined to the axes of its factors is not lengthened any more. -/
theorem Lengthens.modifyDim (h : x.Lengthens m mapping (some s) changed) (hi : i < s.rank) :
    x.Lengthens m mapping (some (s.modifyDim i fun d =>
      { d with axes := mergeAdjacent m (x.dimAxes m mapping i) })) fun j => j ≠ i ∧ changed j := by
  have hdimOf := dimOf_modifyDim hi fun d =>
    { d with axes := mergeAdjacent m (x.dimAxes m mapping i) }
  have hclosed : ∀ j, (dimOf (some (s.modifyDim i fun d =>
      { d with axes := mergeAdjacent m (x.dimAxes m mapping i) })) j).closed
        = (dimOf (some s) j).closed := by
    intro j
    rw [hdimOf]
    split <;> rfl
  refine ⟨h.proper, h.replicated, h.unreduced, fun j fs k hfs hk => ?_, fun j fs hfs => ?_⟩
  · rw [hclosed]
    exact h.factors j fs k hfs hk
  · obtain ⟨more, hmore, hjoined, hchanged⟩ := h.joined j fs hfs
    rw [hclosed, hdimOf]
    by_cases hj : j = i
    · subst hj
      refine ⟨[], List.forall_mem_nil _, ?_, fun hne => absurd rfl hne.1⟩
      rw [if_pos rfl, dimAxes_eq, Mapping.factorsOf_eq hfs, List.append_nil]
      simp only [mergeAdjacent_mergeAdjacent]
      rfl
    · rw [if_neg hj]
      exact ⟨more, hmore, hjoined, fun hne => hchanged hne.2⟩

end TensorFactors

namespace ShardingTable

variable {t t' : ShardingTable} {m : Mesh} {name : String} {v w i j : Nat} {axes : List AxisRef}
  {mapping : Mapping} {x : TensorFactors} {changed : Nat → Prop}

/-- The axes of a dimension of a value that has a sharding. -/
def dimAxes? (t : ShardingTable) (v i : Nat) : Option (List AxisRef) :=
  ((t.get v).bind fun s => s.dims[i]?).map (·.axes)

/-- Refines a table by one update after the other, if none of them is refused. -/
def refineAll (name : String) (m : Mesh) (t : ShardingTable) (updates : List ShardingUpdate) :
    Option ShardingTable :=
  updates.foldlM (fun t u => t.refine u.value u.dim u.axes name m) t

/-- The sharding that stands for that of a value has been refined. -/
theorem exists_of_refine (h : t.refine v i axes name m = some t') :
    ∃ s, s = (t.get v).getD (.fullyOpen name s.rank) ∧ i < s.rank ∧ s.meshName = name ∧
      t'.get v = some (s.modifyDim i fun d => { d with axes := mergeAdjacent m axes }) := by
  obtain ⟨entry, s', hentry, hname, hs', rfl⟩ := refine_eq_some_iff.1 h
  obtain ⟨d, _, hd, -, -, -, -, rfl⟩ := refineDim_eq_some hs'
  have hget : t.get v = entry.sharding := by
    rw [get, hentry]
    rfl
  refine ⟨entry.sharding.getD (.fullyOpen name entry.rank), ?_,
    (List.getElem?_eq_some_iff.1 hd).1, hname, ?_⟩
  · rw [hget]
    cases entry.sharding with
    | none => simp
    | some s => rfl
  · rw [get_put, if_pos ⟨rfl, (List.getElem?_eq_some_iff.1 hentry).1⟩]

theorem get_of_refine (h : t.refine v i axes name m = some t') (hw : w ≠ v) :
    t'.get w = t.get w := by
  rw [get, get, getElem?_of_refine h hw]

theorem dimAxes?_of_refine (h : t.refine v i axes name m = some t') :
    t'.dimAxes? v i = some (mergeAdjacent m axes) := by
  obtain ⟨s, -, hi, -, hget⟩ := exists_of_refine h
  rw [dimAxes?, hget, Option.bind_some, dims_modifyDim (List.getElem?_eq_getElem hi)]
  rfl

/-- The other dimensions are left alone. -/
theorem dimAxes?_of_refine_of_ne (h : t.refine v i axes name m = some t') (hne : (w, j) ≠ (v, i))
    {old : List AxisRef} (hold : t.dimAxes? w j = some old) : t'.dimAxes? w j = some old := by
  by_cases hw : w = v
  · subst hw
    have hj : j ≠ i := fun hj => hne (by rw [hj])
    obtain ⟨s, hs, -, -, hget⟩ := exists_of_refine h
    obtain ⟨s', hs', -⟩ := Option.bind_eq_some_iff.1 (Option.map_eq_some_iff.1 hold).choose_spec.1
    rw [hs', Option.getD_some] at hs
    subst hs
    rw [dimAxes?, hs'] at hold
    rw [dimAxes?, hget, Option.bind_some, dims_modifyDim_of_ne hj]
    exact hold
  · rw [dimAxes?, get_of_refine h hw]
    exact hold

/-- Each dimension of a table has the axes of its value there, and no axes if that has none. -/
theorem axesOf_eq (t : ShardingTable) (v i : Nat) :
    Propagator.axesOf t v i = (dimOf (t.get v) i).axes := by
  unfold Propagator.axesOf dimOf
  cases hs : t.get v with
  | none => rfl
  | some s =>
    simp only [Option.bind_some, Option.map_some, Option.getD_some]
    cases s.dims[i]? <;> rfl

/-- A refinement changes the axes of its own dimension only. -/
theorem axesOf_of_refine (h : t.refine v i axes name m = some t') (w j : Nat) :
    Propagator.axesOf t' w j
      = if w = v ∧ j = i then mergeAdjacent m axes else Propagator.axesOf t w j := by
  rw [axesOf_eq, axesOf_eq]
  by_cases hw : w = v
  · subst hw
    obtain ⟨s, hs, hi, -, hget⟩ := exists_of_refine h
    have hbefore : dimOf (some s) j = dimOf (t.get w) j := by rw [hs, dimOf_getD]
    rw [hget, dimOf_modifyDim hi, hbefore]
    by_cases hj : j = i <;> simp [hj]
  · rw [get_of_refine h hw, if_neg fun h => hw h.1]

/-- What a refinement that is accepted adds makes up the new axes with those that were there. -/
theorem exists_added_of_refine {p : Program} (ht : t.Sound p) (hm : p.mesh name = .ok m)
    (hv : AllValid m axes) (h : t.refine v i axes name m = some t') :
    ∃ added, stripPrefix? m axes (Propagator.axesOf t v i) = some added ∧
      AllValid m (Propagator.axesOf t v i) ∧ AllValid m added ∧
      mergeAdjacent m (Propagator.axesOf t v i ++ added) = mergeAdjacent m axes := by
  obtain ⟨entry, s, hentry, hname, hs, -⟩ := refine_eq_some_iff.1 h
  obtain ⟨d, added, hd, -, -, hstrip, -, -⟩ := refineDim_eq_some hs
  have hget : t.get v = entry.sharding := by rw [get, hentry]; rfl
  have haxes : Propagator.axesOf t v i = d.axes := by
    rw [axesOf_eq, hget, ← dimOf_getD _ name entry.rank]
    simp only [dimOf, Option.map_some, Option.getD_some, hd]
  obtain ⟨-, hvalid⟩ := ht.valid_getD hentry hname hm
  have hold : AllValid m d.axes := (allValid_append.1 ((valid_iff hd).1 hvalid).1).1
  obtain ⟨hadded, hmerge⟩ := stripPrefix?_eq_some hv hold hstrip
  rw [haxes]
  exact ⟨added, hstrip, hold, hadded, hmerge⟩

/-- The factors lengthen what has not been refined to their axes. -/
theorem lengthens_of_refine (h : x.Lengthens m mapping (t.get v) changed)
    (hrefine : t.refine v i (x.dimAxes m mapping i) name m = some t') :
    x.Lengthens m mapping (t'.get v) fun j => j ≠ i ∧ changed j := by
  obtain ⟨s, hs, hi, -, hget⟩ := exists_of_refine hrefine
  have hbase := h.getD name s.rank
  rw [← hs] at hbase
  rw [hget]
  exact hbase.modifyDim hi

end ShardingTable

namespace Operation

/-- Where the values are distinct each of them is one tensor. -/
theorem value?_inj {o : Operation} (hn : (o.operands ++ o.results).Nodup) {x y : TensorRef}
    {v : Nat} (hx : o.value? x = some v) (hy : o.value? y = some v) : x = y := by
  obtain ⟨hoperands, hresults, hdisjoint⟩ := List.nodup_append.1 hn
  have hinj : ∀ {l : List Nat} {i j : Nat}, l.Nodup → l[i]? = some v → l[j]? = some v → i = j :=
    fun hl hi hj =>
      (List.getElem?_inj (List.getElem?_eq_some_iff.1 hi).1 hl).1 (hi.trans hj.symm)
  obtain ⟨side, i⟩ := x
  obtain ⟨side', j⟩ := y
  cases side <;> cases side'
  · have hij : i = j := hinj hoperands hx hy
    rw [hij]
  · exact absurd rfl (hdisjoint v (List.mem_of_getElem? hx) v (List.mem_of_getElem? hy))
  · exact absurd rfl (hdisjoint v (List.mem_of_getElem? hy) v (List.mem_of_getElem? hx))
  · have hij : i = j := hinj hresults hx hy
    rw [hij]

end Operation

namespace Propagator

variable {g : Propagator} {o : Operation} {r : Rule} {m : Mesh} {name : String} {q : Projection}
  {changed changed' : TensorRef → Nat → Prop} {t : ShardingTable} {us : List FactorUpdate}
  {updates : List ShardingUpdate} {seen : List (TensorRef × Nat)}

/-- The table is valid, and the factors of the operation lengthen the dimensions in question. -/
structure Awaits (g : Propagator) (o : Operation) (r : Rule) (m : Mesh) (name : String)
    (q : Projection) (changed : TensorRef → Nat → Prop) (t : ShardingTable) : Prop where
  sound : t.Sound g.program
  named : ∀ x v s, o.value? x = some v → t.get v = some s → s.meshName = name
  lengthens : ∀ x tensor mapping v, q.tensor? x = some tensor → r.mapping? x = some mapping →
    o.value? x = some v → tensor.Lengthens m mapping (t.get v) (changed x)

theorem Awaits.mono (h : Awaits g o r m name q changed t)
    (hle : ∀ x i, changed' x i → changed x i) : Awaits g o r m name q changed' t :=
  { h with lengthens := fun x tensor mapping v htensor hmapping hv =>
      (h.lengthens x tensor mapping v htensor hmapping hv).mono (hle x) }

/-- Such a dimension can be refined, and the others are still in question. -/
theorem Awaits.refine (h : Awaits g o r m name q changed t)
    (hn : (o.operands ++ o.results).Nodup) (hr : r.verify (g.program.signatureOf o) = .ok ())
    (hm : g.program.mesh name = .ok m) (hunit : m.NoUnitAxes) {x : TensorRef}
    {tensor : TensorFactors} {mapping : Mapping} {v i : Nat} {fs : List Nat}
    (htensor : q.tensor? x = some tensor) (hmapping : r.mapping? x = some mapping)
    (hv : o.value? x = some v) (hfs : mapping.dims[i]? = some fs) (hi : changed x i) :
    ∃ t', t.refine v i (tensor.dimAxes m mapping i) name m = some t' ∧
      Awaits g o r m name q (fun y j => (y, j) ≠ (x, i) ∧ changed y j) t' := by
  obtain ⟨_, hv', hmaps⟩ := exists_maps hr hmapping
  cases hv.symm.trans hv'
  have hlengthens := h.lengthens x tensor mapping v htensor hmapping hv
  obtain ⟨t', ht'⟩ := ShardingTable.exists_refine h.sound hm hunit (h.named x v · hv) hmaps
    hlengthens hfs hi
  obtain ⟨hvalid, hapart⟩ := hlengthens.proper.dimAxes hmaps.nodup i
  refine ⟨t', ht', h.sound.refine hm hvalid hapart ht', fun y w s hw hs => ?_,
    fun y tensor' mapping' w htensor' hmapping' hw => ?_⟩
  · by_cases hwv : w = v
    · subst hwv
      obtain ⟨base, -, -, hname, hget⟩ := ShardingTable.exists_of_refine ht'
      cases hget.symm.trans hs
      exact hname
    · exact h.named y w s hw (ShardingTable.get_of_refine ht' hwv ▸ hs)
  · by_cases hyx : y = x
    · subst hyx
      cases htensor.symm.trans htensor'
      cases hmapping.symm.trans hmapping'
      cases hv.symm.trans hw
      refine (ShardingTable.lengthens_of_refine hlengthens ht').mono fun j hj => ⟨?_, hj.2⟩
      rintro rfl
      exact hj.1 rfl
    · have hwv : w ≠ v := by
        rintro rfl
        exact hyx (Operation.value?_inj hn hw hv)
      rw [ShardingTable.get_of_refine ht' hwv]
      exact (h.lengthens y tensor' mapping' w htensor' hmapping' hw).mono fun j hj => hj.2

/-- One of the factor updates is for the dimension. -/
def Asks (r : Rule) (us : List FactorUpdate) (x : TensorRef) (i : Nat) : Prop :=
  ∃ u ∈ us, u.target = x ∧ ∃ mapping, placeOf r u = some (mapping, i)

/-- All updates are accepted. A dimension that has had its update keeps its axes. -/
theorem Awaits.exists_refineAll
    (h : Awaits g o r m name q (fun x i => (x, i) ∉ seen ∧ Asks r us x i) t)
    (hn : (o.operands ++ o.results).Nodup) (hr : r.verify (g.program.signatureOf o) = .ok ())
    (hm : g.program.mesh name = .ok m) (hunit : m.NoUnitAxes)
    (htensors : ∀ u ∈ us, (q.tensor? u.target).isSome)
    (hupdates : updatesOf m o r q seen us = .ok updates) :
    ∃ t', t.refineAll name m updates = some t' ∧
      (∀ u ∈ updates, t'.dimAxes? u.value u.dim = some (mergeAdjacent m u.axes)) ∧
      ∀ x v i axes, (x, i) ∈ seen → o.value? x = some v → t.dimAxes? v i = some axes →
        t'.dimAxes? v i = some axes := by
  induction us generalizing seen updates t with
  | nil =>
    cases hupdates
    exact ⟨t, rfl, nofun, fun _ _ _ _ _ _ haxes => haxes⟩
  | cons u rest ih =>
    rw [List.forall_mem_cons] at htensors
    obtain ⟨-, hupdates⟩ | ⟨mapping, i, v, source, more, hplace, hseen, hv, -, hmore, rfl⟩ :=
      updatesOf_cons_eq_ok hupdates
    · refine ih (h.mono fun x j hj => ⟨hj.1, ?_⟩) htensors.2 hupdates
      obtain ⟨w, hw, hj⟩ := hj.2
      exact ⟨w, List.mem_cons_of_mem _ hw, hj⟩
    · obtain ⟨tensor, htensor⟩ := Option.isSome_iff_exists.1 htensors.1
      obtain ⟨hmapping, fs, hfs, -⟩ := exists_dim_of_placeOf hplace
      have hv := Operation.valueAt_eq_ok_iff.1 hv
      obtain ⟨next, hnext, hawaits⟩ := h.refine hn hr hm hunit htensor hmapping hv hfs
        ⟨hseen, u, List.mem_cons_self, rfl, mapping, hplace⟩
      have hrest : Awaits g o r m name q
          (fun x j => (x, j) ∉ (u.target, i) :: seen ∧ Asks r rest x j) next := by
        refine hawaits.mono ?_
        rintro x j ⟨hnot, w, hw, hj⟩
        rw [List.mem_cons, not_or] at hnot
        exact ⟨hnot.1, hnot.2, w, List.mem_cons_of_mem _ hw, hj⟩
      obtain ⟨t', ht', haxes, hkept⟩ := ih hrest htensors.2 hmore
      rw [htensor, Option.map_some, Option.getD_some]
      refine ⟨t', ?_, List.forall_mem_cons.2 ⟨?_, haxes⟩, fun x w j axes hmem hw hold => ?_⟩
      · simp only [ShardingTable.refineAll, List.foldlM_cons, hnext]
        exact ht'
      · exact hkept u.target v i _ List.mem_cons_self hv (ShardingTable.dimAxes?_of_refine hnext)
      · refine hkept x w j axes (List.mem_cons_of_mem _ hmem) hw
          (ShardingTable.dimAxes?_of_refine_of_ne hnext ?_ hold)
        rintro ⟨⟩
        exact hseen (Operation.value?_inj hn hw hv ▸ hmem)

/-- An operation on distinct values reaches a decision over a table of valid shardings. All its
updates are accepted one after the other, and then each dimension has the axes of its update. -/
theorem exists_refineAll_of_decide (ht : t.Sound g.program) (hunit : g.program.NoUnitAxes)
    (hr : r.verify (g.program.signatureOf o) = .ok ())
    (hn : (o.operands ++ o.results).Nodup) (d : Direction) :
    ∃ decision, g.decide o r d t = .ok decision ∧ ∀ x ∈ decision, ∃ t',
      t.refineAll x.meshName x.mesh x.updates = some t' ∧
        ∀ u ∈ x.updates, t'.dimAxes? u.value u.dim = some (mergeAdjacent x.mesh u.axes) := by
  obtain ⟨decision, hdecide, -⟩ := exists_decide ht hr d
  refine ⟨decision, hdecide, ?_⟩
  rintro x ⟨⟩
  obtain ⟨p, q, us, hm, hname, hp, hq, hupdates⟩ := decide_eq_some hdecide
  have hstart := lengthens_ofShardings ht hr hm hname hp
  obtain ⟨hlengthens, htensors⟩ := FactorStep.lengthens_propagate (s := g.factorStep x.mesh)
    (fun _ _ hmapping => (exists_maps hr hmapping).choose_spec.2.nodup) hstart hq
  have hawaits : Awaits g o r x.mesh x.meshName q (fun y i => (y, i) ∉ [] ∧ Asks r us y i) t := by
    refine ⟨ht, fun y v s hv hs => meshName_of_value? hname hv hs,
      fun y tensor mapping v htensor hmapping hv => ?_⟩
    have htensor' := hlengthens.tensors y tensor mapping htensor hmapping
    rw [hv, Option.bind_some] at htensor'
    refine htensor'.mono ?_
    rintro i ⟨-, u, hu, rfl, mapping', hplace⟩
    cases hmapping.symm.trans (exists_dim_of_placeOf hplace).1
    exact ⟨u, hu, rfl, hplace⟩
  obtain ⟨t', ht', haxes, -⟩ := hawaits.exists_refineAll hn hr hm (hunit.mesh hm) htensors hupdates
  exact ⟨t', ht', haxes⟩

/-- The first operation asks for the axis of its operand. -/
theorem exists_refineAll_of_decide_relay :
    let g : Propagator := ⟨relay, .default, Policy.largest⟩
    let r := Rule.identity [6] 1 1
    let o : Operation := ⟨"negate", [0], [1], [], some r⟩
    let sharded : TableEntry := ⟨1, some (.ofDims "mesh" [.ofAxes [.full "x"] false])⟩
    let t : ShardingTable := [sharded, ⟨1, none⟩, ⟨1, none⟩]
    t.Sound relay ∧ relay.NoUnitAxes ∧ r.verify (relay.signatureOf o) = .ok () ∧
      (o.operands ++ o.results).Nodup ∧
      ∃ decision, g.decide o r .forward t = .ok decision ∧ ∀ x ∈ decision, ∃ t',
        t.refineAll x.meshName x.mesh x.updates = some t' ∧
          ∀ u ∈ x.updates, t'.dimAxes? u.value u.dim = some (mergeAdjacent x.mesh u.axes) := by
  intro g r o sharded t
  have hmeshes : relay.NoUnitAxes := by
    unfold Program.NoUnitAxes Mesh.NoUnitAxes
    decide
  have hvalid : (TensorSharding.ofDims "mesh" [.ofAxes [.full "x"] false]).validate
      (.grid 2 2 Nat.two_pos Nat.two_pos) [6] = .ok () := eq_ok_of_toOption (by decide +kernel)
  have hsound : t.Sound relay := by
    refine ⟨rfl, fun value s hs => ?_⟩
    rcases value with _ | _ | _ | value <;> cases hs
    exact ⟨_, rfl, hvalid⟩
  have hr : r.verify (relay.signatureOf o) = .ok () := by decide
  have hn : (o.operands ++ o.results).Nodup := by decide
  exact ⟨hsound, hmeshes, hr, hn,
    exists_refineAll_of_decide (g := g) hsound hmeshes hr hn .forward⟩

end Propagator
end MeshSharding
