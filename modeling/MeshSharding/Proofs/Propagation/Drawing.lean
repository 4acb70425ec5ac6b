import MeshSharding.Proofs.Propagation.Acceptance

/-! Where an operation takes axes from. What a factor takes in a step is covered by what its source
had of the factor before the step. If only one tensor can be the source of a dimension, an update is
covered by the dimension that it is for and by the value that it names as its source. -/
namespace MeshSharding

open AxisList ShardingTable TensorSharding

theorem AxisRef.Valid.covers_preSize {m : Mesh} {a : AxisRef} (hm : m.NoUnitAxes) (h : a.Valid m) :
    a.covers m a.name a.preSize = true := by
  have hlt := h.preSize_lt_nextPreSize (h.one_lt_size hm)
  simp [covers, hlt]

namespace Rule

/-- Only one tensor can be the source of a dimension: there are at most two tensors, or the dimension
has at most one factor that is propagated. -/
def Unmixed (r : Rule) : Prop :=
  r.allMappings.length ≤ 2 ∨ ∀ mapping ∈ r.allMappings, ∀ fs ∈ mapping.dims, ∀ j ∈ fs, ∀ k ∈ fs,
    r.factors[j]?.any FactorStep.flows = true → r.factors[k]?.any FactorStep.flows = true → j = k

variable {r : Rule} {t : TensorRef} {mapping : Mapping}

theorem mem_allMappings (h : r.mapping? t = some mapping) : mapping ∈ r.allMappings := by
  obtain ⟨side, i⟩ := t
  cases side with
  | operand => exact List.mem_append_left _ (List.mem_of_getElem? h)
  | result => exact List.mem_append_right _ (List.mem_of_getElem? h)

end Rule

namespace Projection

variable {m : Mesh} {r : Rule} {p : Projection}

theorem factor?_setAxes (p : Projection) (t t' : TensorRef) (k k' : Nat) (axes : List AxisRef) :
    (p.setAxes t k axes).factor? t' k' = if t' = t ∧ k' = k
      then (p.factor? t k).map fun f => { f with axes := axes } else p.factor? t' k' := by
  rw [factor?, factor?, factor?, tensor?_setAxes]
  by_cases ht : t' = t
  · subst ht
    rw [if_pos rfl]
    cases p.tensor? t' with
    | none => by_cases hk : k' = k <;> simp [hk]
    | some x =>
      rw [Option.map_some, Option.bind_some, Option.bind_some, TensorFactors.factor?_setAxes]
      by_cases hk : k' = k <;> simp [hk]
  · rw [if_neg ht, if_neg fun h => ht h.1]

theorem length_refs_ofShardings {operands results : List (Option TensorSharding)}
    (h : ofShardings m r operands results = .ok p) : p.refs.length = r.allMappings.length := by
  obtain ⟨os, hos, h⟩ := bind_eq_ok_iff.1 h
  obtain ⟨rs, hrs, h⟩ := bind_eq_ok_iff.1 h
  cases h
  simp [refs, Rule.allMappings, length_projectAll hos, length_projectAll hrs]

end Projection

namespace TensorFactors

variable {m : Mesh} {r : Rule} {mapping : Mapping} {shape : Shape} {s : Option TensorSharding}
  {x : TensorFactors} {i k c : Nat} {fs : List Nat} {f : FactorSharding} {name : String}

/-- What a factor of a projection covers is covered by its dimension. -/
theorem coverage_dimOf_pos (hs : ∀ x ∈ s, x.Valid m) (hr : r.Maps mapping shape)
    (h : project m r mapping s = .ok x) (hfs : mapping.dims[i]? = some fs) (hk : k ∈ fs)
    (hf : x.factor? k = some f) (hc : 0 < coverage m name c (f.axes ++ f.overflow)) :
    0 < coverage m name c (dimOf s i).axes := by
  have hvalid := (proper_project hs hr.nodup h).allValid_joined fs
  rw [← coverage_mergeAdjacent (allValid_dimOf hs i), ← joined_project hs hr h hfs,
    coverage_mergeAdjacent hvalid]
  rw [← held_eq hf] at hc
  obtain ⟨a, ha, hcovers⟩ := List.countP_pos_iff.1 hc
  exact List.countP_pos_iff.2 ⟨a, List.mem_flatMap.2 ⟨k, hk, ha⟩, hcovers⟩

theorem exists_dim_of_factor? (hs : ∀ x ∈ s, x.Valid m) (hn : mapping.dims.flatten.Nodup)
    (h : project m r mapping s = .ok x) (hf : x.factor? k = some f) :
    ∃ (i : Nat) (fs : List Nat), mapping.dims[i]? = some fs ∧ k ∈ fs := by
  have hk : k ∈ mapping.dims.flatten := by
    by_contra hnot
    rw [factor?_project_eq_none (fun x hx => (hs x hx).allValid_dims) hn h hnot] at hf
    cases hf
  obtain ⟨fs, hfs, hk⟩ := List.mem_flatten.1 hk
  obtain ⟨i, hi⟩ := List.getElem?_of_mem hfs
  exact ⟨i, fs, hi, hk⟩

theorem exists_of_mem_joined {a : AxisRef} (h : a ∈ x.joined fs) :
    ∃ k ∈ fs, ∃ f, x.factor? k = some f ∧ a ∈ f.axes ++ f.overflow := by
  obtain ⟨k, hk, ha⟩ := List.mem_flatMap.1 h
  cases hf : x.factor? k with
  | none =>
    rw [held, show Sorted.find? k x.factors = none from hf] at ha
    cases ha
  | some f =>
    rw [held_eq hf] at ha
    exact ⟨k, hk, f, hf, ha⟩

end TensorFactors

namespace FactorStep

variable {s : FactorStep} {r : Rule} {p q : Projection} {d : Direction} {k : Nat}
  {towards taken more : List AxisRef} {t source : TensorRef} {us : List FactorUpdate} {a : AxisRef}

theorem Expands.coverage_add_le {mapping : Mapping} {i place : Nat} {fs : List Nat}
    {x : TensorFactors} {f : FactorSharding} (h : s.Expands r k towards taken mapping i place fs x f)
    (hx : x.Proper s.mesh) (hv : AllValid s.mesh towards) (name : String) (c : Nat) :
    coverage s.mesh name c f.axes + coverage s.mesh name c taken
      ≤ coverage s.mesh name c towards := by
  obtain ⟨rest, size, hstrip, -, hgrow⟩ := h.grows
  have hperm := TensorFactors.perm_claims hx.keys h.factor
  obtain ⟨haxes, hused⟩ := allValid_append.1 (hx.valid.perm hperm.symm)
  obtain ⟨_, heq, hfree⟩ := exists_grow size f.minorMost (stripPrefix?_eq_some hv haxes hstrip).1
    hused (totalSize_pos haxes)
  cases hgrow.symm.trans heq
  rw [coverage_stripPrefix? hv haxes hstrip]
  exact Nat.add_le_add_left (hfree.covers_le name c) _

/-- Every update names the source of its factor, which is another tensor than its target. A factor
still covers what it covered in the beginning, and beyond that only what such a source had of it. -/
structure Draws (s : FactorStep) (r : Rule) (d : Direction) (p : Projection)
    (us : List FactorUpdate) (q : Projection) : Prop where
  proper : q.Proper s.mesh
  updates : ∀ u ∈ us, u.target ∈ p.refs ∧ u.source ≠ u.target ∧
    r.factors[u.factor]?.any flows = true ∧
    ∃ towards, s.candidate (sources p d u.factor) = some (towards, u.source)
  factors : ∀ t k f, q.factor? t k = some f → ∃ g, p.factor? t k = some g ∧
    f.overflow = g.overflow ∧
    (∀ name c, coverage s.mesh name c g.axes ≤ coverage s.mesh name c f.axes) ∧
    ∀ name c, 0 < coverage s.mesh name c f.axes → 0 < coverage s.mesh name c g.axes ∨
      ∃ u ∈ us, u.target = t ∧ u.factor = k ∧ 0 < coverage s.mesh name c (axesOf p u.source k)

theorem Draws.refl (hp : p.Proper s.mesh) : Draws s r d p [] p :=
  ⟨hp, nofun, fun _ _ f hf => ⟨f, hf, rfl, fun _ _ => Nat.le_refl _, fun _ _ => .inl⟩⟩

/-- What is taken comes on top of what the target has, and both are a part of what there is. -/
theorem exists_factor?_of_extension (hq : q.Proper s.mesh) (hv : AllValid s.mesh towards)
    (hext : s.extension r q k towards t = .ok (a :: more)) :
    ∃ f, q.factor? t k = some f ∧ axesOf q t k = f.axes ∧ ∀ name c,
      coverage s.mesh name c f.axes + coverage s.mesh name c (a :: more)
        ≤ coverage s.mesh name c towards := by
  obtain ⟨mapping, i, place, fs, x, f, -, hx, hexpands⟩ := exists_expands hext
  have hf : q.factor? t k = some f := by rw [Projection.factor?, hx]; exact hexpands.factor
  exact ⟨f, hf, by simp [axesOf, hf], hexpands.coverage_add_le (hq t x hx) hv⟩

/-- What the source of a factor has of it, the source cannot take again. -/
theorem Draws.source_ne (h : Draws s r d p us q) (hp : p.Proper s.mesh) (hm : s.mesh.NoUnitAxes)
    (hcandidate : s.candidate (sources p d k) = some (towards, source))
    (hext : s.extension r q k towards t = .ok (a :: more)) : source ≠ t := by
  rintro rfl
  obtain ⟨-, hv, ha, hle⟩ := candidate_spec hp hcandidate
  obtain ⟨f, hf, -, hadd⟩ := exists_factor?_of_extension h.proper hv hext
  obtain ⟨g, hg, -, hgrows, -⟩ := h.factors source k f hf
  have hvalid : a.Valid s.mesh := by
    obtain ⟨_, _, -, -, hvalid, -⟩ := takes_of_extension h.proper hv ha hext
    exact hvalid a (List.mem_append_right _ List.mem_cons_self)
  have hcovers : 0 < coverage s.mesh a.name a.preSize (a :: more) :=
    List.countP_pos_iff.2 ⟨a, List.mem_cons_self, hvalid.covers_preSize hm⟩
  have hall := hadd a.name a.preSize
  have hsource := hle a.name a.preSize
  have hgrown := hgrows a.name a.preSize
  simp only [axesOf, hg, Option.map_some, Option.getD_some] at hsource
  omega

/-- A target draws on the source of the factor. -/
theorem Draws.setAxes (h : Draws s r d p us q) (hp : p.Proper s.mesh) (hm : s.mesh.NoUnitAxes)
    (hk : r.factors[k]?.any flows = true)
    (hcandidate : s.candidate (sources p d k) = some (towards, source))
    (hext : s.extension r q k towards t = .ok (a :: more)) :
    Draws s r d p (us ++ [⟨k, t, source⟩]) (q.setAxes t k (axesOf q t k ++ a :: more)) := by
  obtain ⟨-, hv, ha, hle⟩ := candidate_spec hp hcandidate
  obtain ⟨f, hf, haxes, hadd⟩ := exists_factor?_of_extension h.proper hv hext
  obtain ⟨g, hg, hoverflow, hgrows, hold⟩ := h.factors t k f hf
  refine ⟨(takes_of_extension h.proper hv ha hext).setAxes h.proper, fun u hu => ?_,
    fun t' k' f' hf' => ?_⟩
  · rcases List.mem_append.1 hu with hu | hu
    · exact h.updates u hu
    · rw [List.mem_singleton.1 hu]
      have htarget : t ∈ p.refs := by
        obtain ⟨_, hy, -⟩ := Option.bind_eq_some_iff.1 hg
        exact Projection.mem_refs.2 (List.getElem?_eq_some_iff.1 hy).1
      exact ⟨htarget, h.source_ne hp hm hcandidate hext, hk, towards, hcandidate⟩
  · rw [Projection.factor?_setAxes] at hf'
    split at hf'
    · rename_i heq
      obtain ⟨rfl, rfl⟩ := heq
      rw [hf, haxes] at hf'
      cases hf'
      refine ⟨g, hg, hoverflow, fun name c => ?_, fun name c hc => ?_⟩
      · rw [coverage_append]
        exact Nat.le_trans (hgrows name c) (Nat.le_add_right ..)
      · rw [coverage_append] at hc
        by_cases hcf : 0 < coverage s.mesh name c f.axes
        · refine (hold name c hcf).imp_right ?_
          rintro ⟨u, hu, hall⟩
          exact ⟨u, List.mem_append_left _ hu, hall⟩
        · have hall := hadd name c
          have hpos : 0 < coverage s.mesh name c (axesOf p source k') :=
            Nat.lt_of_lt_of_le (by omega) (hle name c)
          exact .inr ⟨_, List.mem_append_right _ List.mem_cons_self, rfl, rfl, hpos⟩
    · obtain ⟨g', hg', hoverflow', hgrows', hold'⟩ := h.factors t' k' f' hf'
      refine ⟨g', hg', hoverflow', hgrows', fun name c hc => (hold' name c hc).imp_right ?_⟩
      rintro ⟨u, hu, hall⟩
      exact ⟨u, List.mem_append_left _ hu, hall⟩

theorem draws_propagate (hp : p.Proper s.mesh) (hm : s.mesh.NoUnitAxes)
    (hq : s.propagate r d p = .ok (q, us)) : Draws s r d p us q :=
  propagate_preserves (P := fun q us => Draws s r d p us q) (fun h => h.proper)
    (fun h hk hcandidate _ _ hext => h.setAxes hp hm hk hcandidate hext) (.refl hp) hq

/-- All factors of a dimension that have changed have the same source. -/
theorem Draws.source_eq (h : Draws s r d p us q) (hp : p.Proper s.mesh) (hr : r.Unmixed)
    (hrefs : p.refs.length = r.allMappings.length) {mapping : Mapping} {fs : List Nat}
    (hmapping : r.mapping? t = some mapping) (hfs : fs ∈ mapping.dims)
    {u w : FactorUpdate} (hu : u ∈ us) (hut : u.target = t) (huf : u.factor ∈ fs) (hw : w ∈ us)
    (hwt : w.target = t) (hwf : w.factor ∈ fs) : w.source = u.source := by
  obtain ⟨htarget, hune, huflows, towards, hucandidate⟩ := h.updates u hu
  obtain ⟨-, hwne, hwflows, towards', hwcandidate⟩ := h.updates w hw
  rcases hr with htwo | hone
  · -- the target and two sources would be three tensors
    by_contra hne
    have hnodup : [t, u.source, w.source].Nodup := by
      simp only [List.nodup_cons, List.mem_cons, List.not_mem_nil, or_false, not_or]
      exact ⟨⟨fun heq => hune (hut ▸ heq.symm), fun heq => hwne (hwt ▸ heq.symm)⟩,
        fun heq => hne heq.symm, id, List.nodup_nil⟩
    have hsub : [t, u.source, w.source] ⊆ p.refs := by
      simp [hut ▸ htarget, (candidate_spec hp hucandidate).1, (candidate_spec hp hwcandidate).1]
    have hle := (List.subperm_of_subset hnodup hsub).length_le
    simp only [List.length_cons, List.length_nil] at hle
    omega
  · have hsame := hone mapping (Rule.mem_allMappings hmapping) fs hfs w.factor hwf u.factor huf
      hwflows huflows
    rw [hsame, hucandidate] at hwcandidate
    exact (congrArg Prod.snd (Option.some.inj hwcandidate)).symm

/-- What a dimension covers behind the step one of its factors has covered before, or the source of
an update has covered for that factor. -/
theorem Draws.exists_factor (h : Draws s r d p us q) {x : TensorFactors} {fs : List Nat}
    {name : String} {c : Nat} (hx : q.tensor? t = some x)
    (hc : 0 < coverage s.mesh name c (x.joined fs)) :
    ∃ k ∈ fs, ∃ y f, p.factor? y k = some f ∧
      0 < coverage s.mesh name c (f.axes ++ f.overflow) ∧
      (y = t ∨ ∃ u ∈ us, u.target = t ∧ u.factor = k ∧ u.source = y) := by
  obtain ⟨a, ha, hcovers⟩ := List.countP_pos_iff.1 hc
  obtain ⟨k, hk, f, hf, ha⟩ := TensorFactors.exists_of_mem_joined ha
  have hqf : q.factor? t k = some f := by
    rw [Projection.factor?, hx]
    exact hf
  obtain ⟨g, hg, hoverflow, -, hold⟩ := h.factors t k f hqf
  refine ⟨k, hk, ?_⟩
  rcases List.mem_append.1 ha with ha | ha
  · obtain hc | ⟨u, hu, hut, rfl, hc⟩ := hold name c (List.countP_pos_iff.2 ⟨a, ha, hcovers⟩)
    · refine ⟨t, g, hg, ?_, .inl rfl⟩
      rw [coverage_append]
      exact Nat.lt_of_lt_of_le hc (Nat.le_add_right ..)
    · cases hsource : p.factor? u.source u.factor with
      | none => simp [axesOf, hsource] at hc
      | some f' =>
        simp only [axesOf, hsource, Option.map_some, Option.getD_some] at hc
        refine ⟨u.source, f', hsource, ?_, .inr ⟨u, hu, hut, rfl, rfl⟩⟩
        rw [coverage_append]
        exact Nat.lt_of_lt_of_le hc (Nat.le_add_right ..)
  · refine ⟨t, g, hg, ?_, .inl rfl⟩
    rw [coverage_append, ← hoverflow]
    exact Nat.lt_of_lt_of_le (List.countP_pos_iff.2 ⟨a, ha, hcovers⟩) (Nat.le_add_left ..)

end FactorStep

namespace TensorSharding

variable {m : Mesh} {s s' : TensorSharding} {i c : Nat} {axis : String}

theorem Grows.coverage_le (h : s.Grows m s') (hs : s.Valid m) (hs' : s'.Valid m) :
    coverage m axis c (dimOf (some s) i).axes ≤ coverage m axis c (dimOf (some s') i).axes := by
  simp only [dimOf, Option.map_some, Option.getD_some]
  cases hd : s.dims[i]? with
  | none => exact Nat.zero_le _
  | some d =>
    obtain ⟨e, he⟩ : ∃ e, s'.dims[i]? = some e := by
      have hlt : i < s'.rank := h.rank.symm ▸ (List.getElem?_eq_some_iff.1 hd).1
      exact ⟨_, List.getElem?_eq_getElem hlt⟩
    obtain ⟨-, -, hstrip⟩ := h.dims i d e hd he
    obtain ⟨rest, hstrip⟩ := Option.isSome_iff_exists.1 hstrip
    rw [he, Option.getD_some, Option.getD_some,
      coverage_stripPrefix? (hs'.allValid_axes he) (hs.allValid_axes hd) hstrip]
    exact Nat.le_add_right ..

end TensorSharding

namespace ShardingTable

variable {p : Program} {t t' : ShardingTable} {m : Mesh} {name axis : String} {v i c : Nat}

/-- The value is sharded over the mesh of that name, and its dimension covers the place. -/
def Covers (t : ShardingTable) (name : String) (m : Mesh) (v i : Nat) (axis : String) (c : Nat) :
    Prop :=
  ∃ s, t.get v = some s ∧ s.meshName = name ∧ 0 < coverage m axis c (dimOf (some s) i).axes

theorem covers_of_coverage_pos (hname : ∀ s, t.get v = some s → s.meshName = name)
    (hc : 0 < coverage m axis c (Propagator.axesOf t v i)) : t.Covers name m v i axis c := by
  rw [axesOf_eq] at hc
  cases hs : t.get v with
  | none => simp [hs, dimOf, DimSharding.ofAxes] at hc
  | some s => exact ⟨s, hs, hname s hs, hs ▸ hc⟩

theorem Covers.coverage_pos (h : t.Covers name m v i axis c) :
    0 < coverage m axis c (Propagator.axesOf t v i) := by
  obtain ⟨s, hs, -, hc⟩ := h
  rwa [axesOf_eq, hs]

/-- A table that grows covers what it has covered. -/
theorem Covers.grows (h : t.Covers name m v i axis c) (hgrows : t.Grows p t') (ht : t.Sound p)
    (ht' : t'.Sound p) (hm : p.mesh name = .ok m) : t'.Covers name m v i axis c := by
  obtain ⟨s, hs, hname, hc⟩ := h
  obtain ⟨s', hs'⟩ := Option.isSome_iff_exists.1 (hgrows.kept v (by simp [hs]))
  obtain ⟨m', hm', hgrown⟩ := hgrows.grows v s' hs'
  rw [hs, Option.getD_some] at hgrown
  have hname' : s'.meshName = name := hgrown.meshName.trans hname
  cases (hname' ▸ hm').symm.trans hm
  exact ⟨s', hs', hname', Nat.lt_of_lt_of_le hc
    (hgrown.coverage_le (ht.valid_of_get hm hs hname).2 (ht'.valid_of_get hm hs' hname').2)⟩

end ShardingTable

namespace Propagator

open FactorStep

variable {g : Propagator} {o : Operation} {r : Rule} {d : Direction} {t : ShardingTable}
  {decision : Decision} {u : ShardingUpdate}

/-- A tensor of the operation covers in a dimension what it covers for a factor of it. -/
theorem exists_dim_of_factor? {m : Mesh} {name axis : String} {p : Projection} {y : TensorRef}
    {v k c : Nat} {f : FactorSharding} (ht : t.Sound g.program)
    (hr : r.verify (g.program.signatureOf o) = .ok ()) (hm : g.program.mesh name = .ok m)
    (hname : commonMesh (o.operands.map t.get ++ o.results.map t.get) = some name)
    (hp : Projection.ofShardings m r (o.operands.map t.get) (o.results.map t.get) = .ok p)
    (hv : o.value? y = some v) (hf : p.factor? y k = some f)
    (hc : 0 < coverage m axis c (f.axes ++ f.overflow)) :
    ∃ (mapping : Mapping) (i : Nat) (fs : List Nat), r.mapping? y = some mapping ∧
      mapping.dims[i]? = some fs ∧ k ∈ fs ∧ 0 < coverage m axis c (axesOf t v i) := by
  obtain ⟨x, hx, hf⟩ := Option.bind_eq_some_iff.1 hf
  obtain ⟨mapping, hmapping, hproject⟩ := (tensor?_ofShardings hp).1 hx
  obtain ⟨_, hv', hmaps⟩ := exists_maps hr hmapping
  cases hv.symm.trans hv'
  rw [hv, Option.bind_some] at hproject
  have hvalid : ∀ s ∈ t.get v, s.Valid m := fun s hs => (valid_of_value? ht hm hname hv hs).2
  obtain ⟨i, fs, hfs, hk⟩ := TensorFactors.exists_dim_of_factor? hvalid hmaps.nodup hproject hf
  refine ⟨mapping, i, fs, hmapping, hfs, hk, ?_⟩
  rw [ShardingTable.axesOf_eq]
  exact TensorFactors.coverage_dimOf_pos hvalid hmaps hproject hfs hk hf hc

/-- What an update covers is covered by the dimension that it is for or by a dimension of its
source. -/
theorem drawn_of_decide (ht : t.Sound g.program) (hunit : g.program.NoUnitAxes)
    (hr : r.verify (g.program.signatureOf o) = .ok ()) (hunmixed : r.Unmixed)
    (h : g.decide o r d t = .ok (some decision)) (hu : u ∈ decision.updates) {axis : String}
    {c : Nat} (hc : 0 < coverage decision.mesh axis c u.axes) :
    t.Covers decision.meshName decision.mesh u.value u.dim axis c ∨
      ∃ i, t.Covers decision.meshName decision.mesh u.source i axis c := by
  obtain ⟨p, q, us, hm, hname, hp, hq, hupdates⟩ := decide_eq_some h
  have hproper := (lengthens_ofShardings ht hr hm hname hp).proper
  have hdraws : Draws (g.factorStep decision.mesh) r d p us q :=
    draws_propagate hproper (hunit.mesh hm) hq
  obtain ⟨w, hw, mapping, hplace, hvalue, hsource, haxes⟩ := exists_of_mem_updatesOf hupdates hu
  obtain ⟨hmapping, fs, hfs, hwfs⟩ := exists_dim_of_placeOf hplace
  have hvalue := Operation.valueAt_eq_ok_iff.1 hvalue
  have hsource := Operation.valueAt_eq_ok_iff.1 hsource
  obtain ⟨x, hx⟩ : ∃ x, q.tensor? w.target = some x := by
    cases hx : q.tensor? w.target with
    | some x => exact ⟨x, rfl⟩
    | none => simp [haxes, hx] at hc
  have hvalid : AllValid decision.mesh (x.joined fs) :=
    (hdraws.proper w.target x hx).allValid_joined fs
  rw [haxes, hx, Option.map_some, Option.getD_some, TensorFactors.dimAxes_eq,
    Mapping.factorsOf_eq hfs, ← TensorFactors.joined, coverage_mergeAdjacent hvalid] at hc
  obtain ⟨k, hk, y, f, hf, hc, hy⟩ := hdraws.exists_factor hx hc
  -- where the factor has taken axes, the update of the dimension names the same source
  have hy : y = w.target ∨ y = w.source := by
    refine hy.imp_right ?_
    rintro ⟨v, hv, hvt, rfl, rfl⟩
    exact hdraws.source_eq hproper hunmixed (Projection.length_refs_ofShardings hp) hmapping
      (List.mem_of_getElem? hfs) hw rfl hwfs hv hvt hk
  rcases hy with rfl | rfl
  · obtain ⟨_, i, gs, hmapping', hgs, hkgs, hc⟩ := exists_dim_of_factor? ht hr hm hname hp hvalue hf hc
    cases hmapping.symm.trans hmapping'
    obtain ⟨_, -, hmaps⟩ := exists_maps hr hmapping
    rw [Mapping.index_eq_of_mem hmaps.nodup hgs hkgs hfs hk] at hc
    exact .inl (covers_of_coverage_pos (fun s hs => meshName_of_value? hname hvalue hs) hc)
  · obtain ⟨_, i, _, -, -, -, hc⟩ := exists_dim_of_factor? ht hr hm hname hp hsource hf hc
    exact .inr ⟨i, covers_of_coverage_pos (fun s hs => meshName_of_value? hname hsource hs) hc⟩

end Propagator
end MeshSharding
