import MeshSharding.Proofs.Collective.Closing
import MeshSharding.Proofs.Propagation.Replay

/-! Operations over closed shardings. Once the shardings of an operation are closed, only its
unsharded tensors can still take axes, and they are refused what they were refused before: this
holds also where the axes of some factors have been rewritten that no unsharded tensor has. -/
namespace MeshSharding

open AxisList

namespace TensorFactors

variable {m : Mesh} {r : Rule} {closed : Bool} {fs : List Nat} {l : List AxisRef}
  {entries : List (Nat × FactorSharding)} {mapping : Mapping} {s s' : TensorSharding}
  {x x' : TensorFactors} {k : Nat}

/-- What factors take does not depend on whether the dimension is closed. -/
theorem dealOut_closed (h : dealOut m r closed fs l = .ok entries) (closed' : Bool) :
    dealOut m r closed' fs l
      = .ok (entries.map fun e => (e.1, { e.2 with closed := closed' })) := by
  induction fs generalizing l entries with
  | nil => cases h; rfl
  | cons f rest ih =>
    cases rest with
    | nil => cases h; rfl
    | cons g rest =>
      rw [dealOut] at h ⊢
      · cases hn : r.sizeOf? f with
        | none => rw [hn] at h; cases h
        | some n =>
          rw [hn] at h
          obtain ⟨share, hshare, h⟩ := bind_eq_ok_iff.1 h
          obtain ⟨others, hothers, h⟩ := bind_eq_ok_iff.1 h
          cases h
          simp only [hshare, ih hothers, bind, Except.bind]
          rfl
      · simp
      · simp

theorem axes_of_dealOut_nil (h : dealOut m r closed fs [] = .ok entries) :
    ∀ e ∈ entries, e.2.axes = [] := by
  induction fs generalizing entries with
  | nil => cases h; nofun
  | cons f rest ih =>
    cases rest with
    | nil => cases h; simp
    | cons g rest =>
      obtain ⟨share, others, htake, hothers, rfl⟩ := dealOut_cons_eq_ok h
      cases htake
      exact List.forall_mem_cons.2 ⟨rfl, ih hothers⟩

theorem factor?_project_eq_none {s : Option TensorSharding} (hs : ∀ x ∈ s, x.ValidDims m)
    (hn : mapping.dims.flatten.Nodup) (h : project m r mapping s = .ok x)
    (hk : k ∉ mapping.dims.flatten) : x.factor? k = none := by
  obtain ⟨entries, hentries, h⟩ := bind_eq_ok_iff.1 h
  cases h
  obtain ⟨hkeys, -⟩ := dealOutDims_spec (allValid_getD_dims hs) hentries
  rw [factor?, Sorted.find?_ofEntries (hkeys ▸ hn)]
  exact Sorted.find?_eq_none (hkeys ▸ hk)

/-- The factors of a tensor without a sharding have no axes. -/
theorem axes_of_project_none (hn : mapping.dims.flatten.Nodup)
    (h : project m r mapping none = .ok x) {f : FactorSharding} (hf : x.factor? k = some f) :
    f.axes = [] := by
  obtain ⟨entries, hentries, h⟩ := bind_eq_ok_iff.1 h
  cases h
  have hv : ∀ d ∈ ([] : List DimSharding), AllValid m d.axes := nofun
  have hdims : ∀ {fss : List (List Nat)} {entries : List (Nat × FactorSharding)},
      dealOutDims m r fss [] = .ok entries → ∀ e ∈ entries, e.2.axes = [] := by
    intro fss
    induction fss with
    | nil => intro entries h; cases h; nofun
    | cons fs rest ih =>
      intro entries h
      obtain ⟨part, hpart, h⟩ := bind_eq_ok_iff.1 h
      obtain ⟨others, hothers, h⟩ := bind_eq_ok_iff.1 h
      cases h
      exact List.forall_mem_append.2 ⟨axes_of_dealOut_nil hpart, ih hothers⟩
  have hkeys := (dealOutDims_spec hv hentries).1
  rw [factor?, Sorted.find?_ofEntries (hkeys ▸ hn)] at hf
  exact hdims hentries _ (Sorted.mem_of_find? hf)

theorem exists_mem_dims (hk : k ∈ mapping.dims.flatten) :
    ∃ (i : Nat) (fs : List Nat), mapping.dims[i]? = some fs ∧ k ∈ fs := by
  obtain ⟨fs, hfs, hk⟩ := List.mem_flatten.1 hk
  obtain ⟨i, hi⟩ := List.getElem?_of_mem hfs
  exact ⟨i, fs, hi, hk⟩

/-- The sharding of a factor is that of its dimension. -/
theorem exists_factor?_of_mem (hs : s.Valid m) (hn : mapping.dims.flatten.Nodup)
    (h : project m r mapping (some s) = .ok x) {i : Nat} {d : DimSharding}
    (hfs : mapping.dims[i]? = some fs) (hk : k ∈ fs) (hd : s.dims[i]? = some d) :
    ∃ part f, dealOut m r d.closed fs d.axes = .ok part ∧ (k, f) ∈ part ∧
      x.factor? k = some f := by
  obtain ⟨part, hpart, hall⟩ := factor?_project hs.allValid_dims hn h hfs hd
  have hkeys := (dealOut_spec (hs.allValid_axes hd) hpart).1
  rw [← hkeys] at hk
  obtain ⟨⟨_, f⟩, he, rfl⟩ := List.mem_map.1 hk
  exact ⟨part, f, hpart, he, hall _ he⟩

/-- All factors of a closed sharding are closed. -/
theorem closed_of_project (hs : s.Valid m) (hn : mapping.dims.flatten.Nodup)
    (hrank : mapping.rank = s.rank) (hclosed : s.isFullyClosed = true)
    (h : project m r mapping (some s) = .ok x) {f : FactorSharding} (hf : x.factor? k = some f) :
    f.closed = true := by
  by_cases hk : k ∈ mapping.dims.flatten
  · obtain ⟨i, fs, hi, hk⟩ := exists_mem_dims hk
    have hlt : i < s.rank := hrank ▸ (List.getElem?_eq_some_iff.1 hi).1
    obtain ⟨d, hd⟩ : ∃ d, s.dims[i]? = some d := ⟨_, List.getElem?_eq_getElem hlt⟩
    obtain ⟨part, f', hpart, hmem, hf'⟩ := exists_factor?_of_mem hs hn h hi hk hd
    cases hf.symm.trans hf'
    have hd' : d.closed = true := List.all_eq_true.1 hclosed d (List.mem_of_getElem? hd)
    have hagain := dealOut_closed hpart true
    rw [← hd', hpart] at hagain
    rw [Except.ok.inj hagain] at hmem
    obtain ⟨e, -, he⟩ := List.mem_map.1 hmem
    cases he
    exact hd'
  · rw [factor?_project_eq_none (by simpa using hs.allValid_dims) hn h hk] at hf
    cases hf

/-- Two shardings with the same axes in the dimension of a factor give it the same portion. -/
theorem portion_project_congr (hs : s.Valid m) (hs' : s'.Valid m) (hn : mapping.dims.flatten.Nodup)
    (hrank : mapping.rank = s.rank) (hrank' : s'.rank = s.rank)
    (h : project m r mapping (some s) = .ok x) (h' : project m r mapping (some s') = .ok x')
    (hdims : ∀ (i : Nat) (d d' : DimSharding), k ∈ mapping.factorsOf i → s.dims[i]? = some d →
      s'.dims[i]? = some d' → d'.axes = d.axes) :
    (x'.factor? k).map Portion.ofFactor = (x.factor? k).map Portion.ofFactor := by
  by_cases hk : k ∈ mapping.dims.flatten
  · obtain ⟨i, fs, hi, hk⟩ := exists_mem_dims hk
    have hlt : i < s.rank := hrank ▸ (List.getElem?_eq_some_iff.1 hi).1
    obtain ⟨d, hd⟩ : ∃ d, s.dims[i]? = some d := ⟨_, List.getElem?_eq_getElem hlt⟩
    have hlt' : i < s'.rank := hrank'.symm ▸ hlt
    obtain ⟨d', hd'⟩ : ∃ d', s'.dims[i]? = some d' := ⟨_, List.getElem?_eq_getElem hlt'⟩
    obtain ⟨part, f, hpart, hmem, hf⟩ := exists_factor?_of_mem hs hn h hi hk hd
    obtain ⟨part', hpart', hall⟩ := factor?_project hs'.allValid_dims hn h' hi hd'
    rw [hdims i d d' (Mapping.factorsOf_eq hi ▸ hk) hd hd', dealOut_closed hpart] at hpart'
    cases hpart'
    rw [hf, hall _ (List.mem_map_of_mem hmem)]
    rfl
  · rw [factor?_project_eq_none (by simpa using hs.allValid_dims) hn h hk,
      factor?_project_eq_none (by simpa using hs'.allValid_dims) hn h' hk]

end TensorFactors

namespace FactorStep

variable {p q : Projection} {d e : Direction} {k : Nat} {t : TensorRef}

/-- The sources are the tensors that have axes for the factor. -/
theorem sources_eq (p : Projection) (d : Direction) (k : Nat) :
    sources p d k = p.refs.filterMap fun t =>
      if isSource d t = true ∧ axesOf p t k ≠ [] then some (t, axesOf p t k) else none := by
  rw [sources, List.filterMap_filter]
  refine List.filterMap_congr fun t _ => ?_
  cases hf : p.factor? t k with
  | none => simp [axesOf, hf]
  | some f =>
    have haxes : axesOf p t k = f.axes := by simp [axesOf, hf]
    cases hd : isSource d t <;> cases hnil : f.axes <;> simp [haxes, hnil]

/-- Tensors without axes for the factor are no sources, whatever the direction is. -/
theorem sources_congr (hrefs : q.refs = p.refs)
    (h : ∀ t ∈ p.refs, axesOf q t k = axesOf p t k ∧
      (isSource e t = isSource d t ∨ axesOf p t k = [])) : sources q e k = sources p d k := by
  rw [sources_eq, sources_eq, hrefs]
  refine List.filterMap_congr fun t ht => ?_
  obtain ⟨haxes, hsource | hnil⟩ := h t ht
  · rw [haxes, hsource]
  · rw [haxes, hnil]
    simp

end FactorStep
namespace Operation

/-- The number of the value at a place among the operands or results. -/
def value? (o : Operation) (x : TensorRef) : Option Nat := (o.values x.side)[x.index]?

theorem valueAt_eq_ok_iff {o : Operation} {x : TensorRef} {v : Nat} :
    o.valueAt x = .ok v ↔ o.value? x = some v := by
  unfold valueAt value?
  cases (o.values x.side)[x.index]? <;> simp

end Operation

namespace Propagator

open FactorStep

variable {g g' : Propagator} {m : Mesh} {o o' : Operation} {r : Rule} {p q : Projection}
  {d e : Direction} {t t' : ShardingTable} {F : Nat → Prop}

section lookup

theorem shardingAt_map_get (o : Operation) (t : ShardingTable) (x : TensorRef) :
    Projection.shardingAt (fun side => (o.values side).map t.get) x = (o.value? x).bind t.get := by
  rw [Projection.shardingAt, List.getElem?_map, Operation.value?]
  cases (o.values x.side)[x.index]? <;> rfl

theorem tensor?_ofShardings
    (h : Projection.ofShardings m r (o.operands.map t.get) (o.results.map t.get) = .ok p)
    {x : TensorRef} {tensor : TensorFactors} : p.tensor? x = some tensor ↔
      ∃ mapping, r.mapping? x = some mapping ∧
        TensorFactors.project m r mapping ((o.value? x).bind t.get) = .ok tensor := by
  rw [← shardingAt_map_get]
  exact Projection.tensor?_eq_some_iff h

/-- The common mesh depends only on the names of the meshes. -/
theorem commonMesh_congr {l l' : List (Option TensorSharding)}
    (h : l'.map (Option.map (·.meshName)) = l.map (Option.map (·.meshName))) :
    commonMesh l' = commonMesh l := by
  have hnames : ∀ l : List (Option TensorSharding), commonMesh l
      = match (l.map (Option.map (·.meshName))).filterMap id with
        | [] => none
        | name :: rest => if rest.all (· = name) then some name else none := by
    intro l
    have hcomm : (l.map (Option.map (·.meshName))).filterMap id
        = (l.filterMap id).map (·.meshName) := by
      simp [List.filterMap_map, List.map_filterMap]
    rw [hcomm, commonMesh]
    cases l.filterMap id with
    | nil => rfl
    | cons s rest => simp [List.all_map, Function.comp_def]
  rw [hnames, hnames, h]

/-- A tensor that the rule maps is a value of the operation. -/
theorem exists_maps {p : Program} (hr : r.verify (p.signatureOf o) = .ok ()) {x : TensorRef}
    {mapping : Mapping} (h : r.mapping? x = some mapping) :
    ∃ v, o.value? x = some v ∧ r.Maps mapping (p.shapeOf v) := by
  obtain ⟨shape, hshape, hmaps⟩ := Rule.exists_maps_of_verify hr h
  have hshapes : (p.signatureOf o).shapes x.side = (o.values x.side).map p.shapeOf := by
    cases x.side <;> rfl
  rw [hshapes, List.getElem?_map] at hshape
  obtain ⟨v, hv, rfl⟩ := Option.map_eq_some_iff.1 hshape
  exact ⟨v, hv, hmaps⟩

variable {name : String}

theorem meshName_of_value?
    (hcommon : commonMesh (o.operands.map t.get ++ o.results.map t.get) = some name)
    {x : TensorRef} {v : Nat} {s : TensorSharding} (hv : o.value? x = some v)
    (hs : t.get v = some s) : s.meshName = name := by
  refine (commonMesh_eq_some hcommon).2 s ?_
  rw [← List.map_append]
  exact List.mem_map.2
    ⟨v, Operation.mem_touched_of_valueAt (Operation.valueAt_eq_ok_iff.2 hv), hs⟩

theorem valid_of_value? (ht : t.Sound g.program) (hm : g.program.mesh name = .ok m)
    (hcommon : commonMesh (o.operands.map t.get ++ o.results.map t.get) = some name)
    {x : TensorRef} {v : Nat} {s : TensorSharding} (hv : o.value? x = some v)
    (hs : t.get v = some s) : s.rank = (g.program.shapeOf v).length ∧ s.Valid m :=
  ht.valid_of_get hm hs (meshName_of_value? hcommon hv hs)

theorem valid_shardingAt (ht : t.Sound g.program) (hm : g.program.mesh name = .ok m)
    (hcommon : commonMesh (o.operands.map t.get ++ o.results.map t.get) = some name)
    (x : TensorRef) :
    ∀ s ∈ Projection.shardingAt (fun side => (o.values side).map t.get) x, s.Valid m := by
  intro s hs
  rw [shardingAt_map_get] at hs
  obtain ⟨v, hv, hs⟩ := Option.bind_eq_some_iff.1 hs
  exact (valid_of_value? ht hm hcommon hv hs).2

theorem refs_ofShardings {os rs os' rs' : List (Option TensorSharding)}
    (hp : Projection.ofShardings m r os rs = .ok p)
    (hq : Projection.ofShardings m r os' rs' = .ok q) : q.refs = p.refs := by
  obtain ⟨_, hos, hp⟩ := bind_eq_ok_iff.1 hp
  obtain ⟨_, hrs, hp⟩ := bind_eq_ok_iff.1 hp
  obtain ⟨_, hos', hq⟩ := bind_eq_ok_iff.1 hq
  obtain ⟨_, hrs', hq⟩ := bind_eq_ok_iff.1 hq
  cases hp
  cases hq
  simp only [Projection.refs, Projection.length_projectAll hos, Projection.length_projectAll hrs,
    Projection.length_projectAll hos', Projection.length_projectAll hrs']

end lookup

/-- The operation `o'` is `o` over closed shardings. Only the axes of factors in `F` may have been
rewritten, and no unsharded tensor has such a factor. -/
structure Closes (o o' : Operation) (r : Rule) (F : Nat → Prop) (t t' : ShardingTable) : Prop where
  operands : o'.operands.length = o.operands.length
  results : o'.results.length = o.results.length
  unsharded : ∀ x v, o'.value? x = some v → t'.get v = none →
    o.value? x = some v ∧ t.get v = none ∧ t'[v]? = t[v]?
  sharded : ∀ x v s', o'.value? x = some v → t'.get v = some s' →
    s'.isFullyClosed = true ∧ ∃ v₀ s, o.value? x = some v₀ ∧ t.get v₀ = some s ∧
      s'.meshName = s.meshName ∧ ∀ mapping, r.mapping? x = some mapping →
        ∀ (i : Nat) (d d' : DimSharding), s.dims[i]? = some d → s'.dims[i]? = some d' →
          d'.axes = d.axes ∨ ∀ f ∈ mapping.factorsOf i, F f
  kept : ∀ x v mapping, o'.value? x = some v → t'.get v = none → r.mapping? x = some mapping →
    ∀ f ∈ mapping.dims.flatten, ¬ F f

/-- A direction that allows fewer flows, into a single tensor. -/
inductive Narrows (o : Operation) : Direction → Direction → Prop
  | same (d : Direction) : Narrows o d d
  | forward : o.results.length ≤ 1 → Narrows o .both .forward
  | backward : o.operands.length ≤ 1 → Narrows o .both .backward

theorem Narrows.isTarget (h : Narrows o d e) {x : TensorRef} (hx : isTarget e x = true) :
    FactorStep.isTarget d x = true := by
  have hboth : FactorStep.isTarget .both x = true := by
    cases hside : x.side <;>
      simp [FactorStep.isTarget, hside, Direction.isForward, Direction.isBackward]
  cases h with
  | same => exact hx
  | forward _ => exact hboth
  | backward _ => exact hboth

/-- A narrower direction has the same sources but on the side of a target, if that has no other
tensor. -/
theorem Narrows.isSource_eq (h : Narrows o d e) {x y : TensorRef}
    (hx : FactorStep.isTarget e x = true)
    (hside : x.side = y.side → 1 < (o.values y.side).length) :
    FactorStep.isSource e y = FactorStep.isSource d y := by
  cases h with
  | same => rfl
  | forward hone =>
    cases hy : y.side with
    | operand => simp [isSource, hy, Direction.isForward]
    | result =>
      cases hxside : x.side with
      | operand => simp [FactorStep.isTarget, hxside, Direction.isBackward] at hx
      | result =>
        rw [hy] at hside
        exact absurd (hside hxside) (Nat.not_lt.2 hone)
  | backward hone =>
    cases hy : y.side with
    | result => simp [isSource, hy, Direction.isBackward]
    | operand =>
      cases hxside : x.side with
      | result => simp [FactorStep.isTarget, hxside, Direction.isForward] at hx
      | operand =>
        rw [hy] at hside
        exact absurd (hside hxside) (Nat.not_lt.2 hone)

theorem one_lt_length_of_ne {x y : TensorRef} {v w : Nat} (hx : o.value? x = some v)
    (hy : o.value? y = some w) (hside : x.side = y.side) (hne : x ≠ y) :
    1 < (o.values y.side).length := by
  obtain ⟨side, i⟩ := x
  obtain ⟨_, j⟩ := y
  cases hside
  have hi := (List.getElem?_eq_some_iff.1 hx).1
  have hj := (List.getElem?_eq_some_iff.1 hy).1
  have hij : i ≠ j := fun heq => hne (by rw [heq])
  dsimp only at hi hj ⊢
  omega

/-- A target that is not sharded. -/
def isOpen (o : Operation) (t : ShardingTable) (e : Direction) (x : TensorRef) : Bool :=
  isTarget e x && (o.value? x).any fun v => (t.get v).isNone

theorem isOpen_iff {x : TensorRef} : isOpen o t e x = true ↔
    isTarget e x = true ∧ ∃ v, o.value? x = some v ∧ t.get v = none := by
  simp [isOpen, Option.any_eq_true]

namespace Closes

theorem length_eq (h : Closes o o' r F t t') (side : Side) :
    (o'.values side).length = (o.values side).length := by
  cases side with
  | operand => exact h.operands
  | result => exact h.results

theorem exists_value? (h : Closes o o' r F t t') {x : TensorRef} {v : Nat}
    (hv : o.value? x = some v) : ∃ v', o'.value? x = some v' := by
  have hlt : x.index < (o'.values x.side).length := by
    rw [h.length_eq]
    exact (List.getElem?_eq_some_iff.1 hv).1
  exact ⟨_, List.getElem?_eq_getElem hlt⟩

theorem commonMesh_eq (h : Closes o o' r F t t') :
    commonMesh (o'.operands.map t'.get ++ o'.results.map t'.get)
      = commonMesh (o.operands.map t.get ++ o.results.map t.get) := by
  have hside : ∀ side, ((o'.values side).map t'.get).map (Option.map (·.meshName))
      = ((o.values side).map t.get).map (Option.map (·.meshName)) := by
    intro side
    refine List.ext_getElem? fun i => ?_
    simp only [List.getElem?_map, Option.map_map]
    cases hv : (o.values side)[i]? with
    | none =>
      rw [List.getElem?_eq_none_iff, ← h.length_eq, ← List.getElem?_eq_none_iff] at hv
      rw [hv]
      rfl
    | some v =>
      obtain ⟨v', hv'⟩ := h.exists_value? (x := ⟨side, i⟩) hv
      rw [show (o'.values side)[i]? = some v' from hv']
      simp only [Option.map_some, Function.comp_apply, Option.some.injEq]
      cases hget : t'.get v' with
      | none =>
        obtain ⟨hsame, hnone, -⟩ := h.unsharded ⟨side, i⟩ v' hv' hget
        cases hv.symm.trans hsame
        rw [hnone]
      | some s' =>
        obtain ⟨-, v₀, s, hv₀, hs, hname, -⟩ := h.sharded ⟨side, i⟩ v' s' hv' hget
        cases hv.symm.trans hv₀
        rw [hs, Option.map_some, Option.map_some, hname]
  refine commonMesh_congr ?_
  rw [List.map_append, List.map_append]
  exact congrArg₂ _ (hside .operand) (hside .result)

/-- Both projections of an operation whose shardings are closed. -/
structure Projects (g g' : Propagator) (o o' : Operation) (r : Rule) (t t' : ShardingTable)
    (m : Mesh) (p q : Projection) : Prop where
  before : Projection.ofShardings m r (o.operands.map t.get) (o.results.map t.get) = .ok p
  after : Projection.ofShardings m r (o'.operands.map t'.get) (o'.results.map t'.get) = .ok q
  verifies : r.verify (g.program.signatureOf o) = .ok ()
  verifies' : r.verify (g'.program.signatureOf o') = .ok ()
  valid : ∀ x v s, o.value? x = some v → t.get v = some s →
    s.rank = (g.program.shapeOf v).length ∧ s.Valid m
  valid' : ∀ x v s, o'.value? x = some v → t'.get v = some s →
    s.rank = (g'.program.shapeOf v).length ∧ s.Valid m

namespace Projects

variable {x : TensorRef} {k v : Nat}

theorem tensor?_eq (h : Projects g g' o o' r t t' m p q) (hc : Closes o o' r F t t')
    (hv : o'.value? x = some v) (hnone : t'.get v = none) : q.tensor? x = p.tensor? x := by
  obtain ⟨hsame, hnone', -⟩ := hc.unsharded x v hv hnone
  refine Option.ext fun tensor => ?_
  rw [tensor?_ofShardings h.before, tensor?_ofShardings h.after, hv, hsame, Option.bind_some,
    Option.bind_some, hnone, hnone']

/-- An unsharded tensor has no axes. -/
theorem axesOf_eq_nil (h : Projects g g' o o' r t t' m p q) (hc : Closes o o' r F t t')
    (hv : o'.value? x = some v) (hnone : t'.get v = none) :
    FactorStep.axesOf p x k = [] := by
  obtain ⟨hsame, hnone', -⟩ := hc.unsharded x v hv hnone
  unfold FactorStep.axesOf Projection.factor?
  cases htensor : p.tensor? x with
  | none => rfl
  | some tensor =>
    obtain ⟨mapping, hmapping, hproject⟩ := (tensor?_ofShardings h.before).1 htensor
    obtain ⟨_, -, hmaps⟩ := exists_maps h.verifies hmapping
    rw [hsame, Option.bind_some, hnone'] at hproject
    dsimp only [Option.bind_some]
    cases hf : tensor.factor? k with
    | none => rfl
    | some f => exact TensorFactors.axes_of_project_none hmaps.nodup hproject hf

/-- A factor that an unsharded tensor has is not among those that have been rewritten. -/
theorem not_rewritten (h : Projects g g' o o' r t t' m p q) (hc : Closes o o' r F t t')
    (hv : o'.value? x = some v) (hnone : t'.get v = none) (hk : (p.factor? x k).isSome) :
    ¬ F k := by
  rw [Projection.factor?, ← h.tensor?_eq hc hv hnone] at hk
  cases htensor : q.tensor? x with
  | none => rw [htensor] at hk; cases hk
  | some tensor =>
    obtain ⟨mapping, hmapping, hproject⟩ := (tensor?_ofShardings h.after).1 htensor
    obtain ⟨_, -, hmaps⟩ := exists_maps h.verifies' hmapping
    rw [hv, Option.bind_some, hnone] at hproject
    refine hc.kept x v mapping hv hnone hmapping k ?_
    by_contra hmem
    rw [htensor, Option.bind_some,
      TensorFactors.factor?_project_eq_none (by simp) hmaps.nodup hproject hmem] at hk
    cases hk

/-- A sharded tensor has the axes it had, but for the factors that have been rewritten. -/
theorem axesOf_eq (h : Projects g g' o o' r t t' m p q) (hc : Closes o o' r F t t')
    {s' : TensorSharding} (hv : o'.value? x = some v) (hs' : t'.get v = some s') (hk : ¬ F k) :
    FactorStep.axesOf q x k = FactorStep.axesOf p x k := by
  obtain ⟨-, v₀, s, hv₀, hs, -, hdims⟩ := hc.sharded x v s' hv hs'
  obtain ⟨hrank, hvalid⟩ := h.valid x v₀ s hv₀ hs
  obtain ⟨hrank', hvalid'⟩ := h.valid' x v s' hv hs'
  unfold FactorStep.axesOf Projection.factor?
  cases hmapping : r.mapping? x with
  | none =>
    have hp : p.tensor? x = none := Option.eq_none_iff_forall_ne_some.2 fun tensor ht => by
      obtain ⟨_, heq, -⟩ := (tensor?_ofShardings h.before).1 ht
      rw [hmapping] at heq
      cases heq
    have hq : q.tensor? x = none := Option.eq_none_iff_forall_ne_some.2 fun tensor ht => by
      obtain ⟨_, heq, -⟩ := (tensor?_ofShardings h.after).1 ht
      rw [hmapping] at heq
      cases heq
    rw [hp, hq]
  | some mapping =>
    obtain ⟨_, heq, hmaps⟩ := exists_maps h.verifies hmapping
    cases hv₀.symm.trans heq
    obtain ⟨_, heq', hmaps'⟩ := exists_maps h.verifies' hmapping
    cases hv.symm.trans heq'
    obtain ⟨z, hz⟩ := TensorFactors.exists_project (s := some s)
      (by simpa using hvalid.allValid_dims) hmaps.known
    obtain ⟨z', hz'⟩ :=
      TensorFactors.exists_project (s := some s') (by simpa using hvalid'.allValid_dims) hmaps'.known
    have hp : p.tensor? x = some z := (tensor?_ofShardings h.before).2
      ⟨mapping, hmapping, by rw [hv₀, Option.bind_some, hs]; exact hz⟩
    have hq : q.tensor? x = some z' := (tensor?_ofShardings h.after).2
      ⟨mapping, hmapping, by rw [hv, Option.bind_some, hs']; exact hz'⟩
    have hportion := TensorFactors.portion_project_congr (k := k) hvalid hvalid' hmaps.nodup
      (hmaps.rank.trans hrank.symm)
      (hrank'.trans (hmaps'.rank.symm.trans (hmaps.rank.trans hrank.symm))) hz hz'
      fun i d d' hi hd hd' => (hdims mapping hmapping i d d' hd hd').resolve_right
        fun hall => hk (hall k hi)
    have haxes := congrArg (Option.map Portion.axes) hportion
    simp only [Option.map_map] at haxes
    rw [hp, hq, Option.bind_some, Option.bind_some]
    exact congrArg (Option.getD · []) haxes

theorem replays (h : Projects g g' o o' r t t' m p q) (hc : Closes o o' r F t t')
    (e : Direction) : Replays (isOpen o' t' e) e p q where
  refs := refs_ofShardings h.before h.after
  same x hx := by
    obtain ⟨-, v, hv, hnone⟩ := isOpen_iff.1 hx
    exact h.tensor?_eq hc hv hnone
  closed x hx htarget k f hf := by
    obtain ⟨tensor, htensor, hf⟩ := Option.bind_eq_some_iff.1 hf
    obtain ⟨mapping, hmapping, hproject⟩ := (tensor?_ofShardings h.after).1 htensor
    obtain ⟨v, hv, hmaps⟩ := exists_maps h.verifies' hmapping
    cases hget : t'.get v with
    | none =>
      have hopen := (isOpen_iff (o := o') (t := t') (e := e)).2 ⟨htarget, v, hv, hget⟩
      rw [hx] at hopen
      cases hopen
    | some s' =>
      obtain ⟨hrank, hvalid⟩ := h.valid' x v s' hv hget
      rw [hv, Option.bind_some, hget] at hproject
      exact TensorFactors.closed_of_project hvalid hmaps.nodup (hmaps.rank.trans hrank.symm)
        (hc.sharded x v s' hv hget).1 hproject hf

theorem sameSources (h : Projects g g' o o' r t t' m p q) (hc : Closes o o' r F t t')
    (hn : Narrows o d e) (k : Nat) : SameSources (isOpen o' t' e) d e p q k := by
  rintro ⟨x, hx, hk⟩
  obtain ⟨htarget, v, hv, hnone⟩ := isOpen_iff.1 hx
  have hF := h.not_rewritten hc hv hnone hk
  refine sources_congr (refs_ofShardings h.before h.after) fun y hy => ?_
  obtain ⟨tensor, htensor⟩ := Option.isSome_iff_exists.1 (Projection.tensor?_isSome hy)
  obtain ⟨mapping, hmapping, -⟩ := (tensor?_ofShardings h.before).1 htensor
  obtain ⟨w, hw, -⟩ := exists_maps h.verifies' hmapping
  cases hget : t'.get w with
  | none =>
    refine ⟨?_, .inr (h.axesOf_eq_nil hc hw hget)⟩
    rw [FactorStep.axesOf, Projection.factor?, h.tensor?_eq hc hw hget]
    rfl
  | some s' =>
    refine ⟨h.axesOf_eq hc hw hget hF, .inl (hn.isSource_eq htarget fun hside => ?_)⟩
    have hne : x ≠ y := by
      rintro rfl
      cases hv.symm.trans hw
      rw [hnone] at hget
      cases hget
    rw [← hc.length_eq]
    exact one_lt_length_of_ne hv hw hside hne

end Projects

/-- An operation that is refused all it asks for is refused it again once its shardings are
closed, also in narrower directions. -/
theorem Refused.closes (h : Refused g o r d t) (hc : Closes o o' r F t t') (hn : Narrows o d e)
    (hmeshes : g'.program.mesh = g.program.mesh) (hstep : g'.factorStep = g.factorStep)
    (ht : t.Sound g.program) (ht' : t'.Sound g'.program)
    (hr : r.verify (g.program.signatureOf o) = .ok ())
    (hr' : r.verify (g'.program.signatureOf o') = .ok ()) : Refused g' o' r e t' := by
  refine h.replays (A := isOpen o' t' e) hmeshes hstep ht' hr' hc.commonMesh_eq (fun x hx => ?_)
    (fun x hx => ?_) (fun x hx v hv => ?_) fun name m p q hname hm hp hq => ?_
  · have htarget := (isOpen_iff.1 hx).1
    exact ⟨hn.isTarget htarget, htarget⟩
  · obtain ⟨-, v, hv, hnone⟩ := isOpen_iff.1 hx
    rw [Operation.valueAt_eq_ok_iff.2 hv,
      Operation.valueAt_eq_ok_iff.2 (hc.unsharded x v hv hnone).1]
  · obtain ⟨-, w, hw, hnone⟩ := isOpen_iff.1 hx
    obtain ⟨hsame, -, hentry⟩ := hc.unsharded x w hw hnone
    cases (Operation.valueAt_eq_ok_iff.1 hv).symm.trans hsame
    exact hentry
  · have hprojects : Projects g g' o o' r t t' m p q :=
      ⟨hp, hq, hr, hr', fun _ _ _ => valid_of_value? ht (hmeshes ▸ hm)
        (hc.commonMesh_eq.symm.trans hname), fun _ _ _ => valid_of_value? ht' hm hname⟩
    exact ⟨hprojects.replays hc e, hprojects.sameSources hc hn⟩

end Closes
end Propagator
end MeshSharding
