import MeshSharding.Proofs.Propagation.Lengthening

/-! Saturation. Whatever an operation asks for lengthens dimensions by axes that are free, and the
table accepts this. So an operation that is refused all it asks for has asked for nothing: no target
can be extended towards the candidate of a factor. -/
namespace MeshSharding

open AxisList

namespace FactorStep

variable {s : FactorStep} {r : Rule} {p q : Projection} {d : Direction} {k : Nat}
  {towards : List AxisRef} {source t : TensorRef} {ts : List TensorRef} {ks : List Nat}
  {us done : List FactorUpdate} {shardings : TensorRef → Option TensorSharding} {a : AxisRef}
  {more : List AxisRef}

section preserves

/-- What holds of a projection and the updates so far is kept by a step if each target that takes
axes keeps it. A factor is propagated from what its sources have at the beginning. -/
theorem propagate_preserves {P : Projection → List FactorUpdate → Prop}
    (hproper : ∀ {q us}, P q us → q.Proper s.mesh)
    (hstep : ∀ {q us k towards source t a more}, P q us → r.factors[k]?.any flows = true →
      s.candidate (sources p d k) = some (towards, source) → AllValid s.mesh towards →
      Apart s.mesh towards → s.extension r q k towards t = .ok (a :: more) →
      P (q.setAxes t k (axesOf q t k ++ a :: more)) (us ++ [⟨k, t, source⟩]))
    (h : P p []) (hq : s.propagate r d p = .ok (q, us)) : P q us := by
  -- from target to target, for one candidate
  have htargets : ∀ {ts : List TensorRef} {k q q' towards source done us}, P q done →
      r.factors[k]?.any flows = true → s.candidate (sources p d k) = some (towards, source) →
      AllValid s.mesh towards → Apart s.mesh towards →
      s.extendTargets r k towards source q ts = .ok (q', us) → P q' (done ++ us) := by
    intro ts k q q' towards source done us h hk hcandidate hv ha hq
    induction ts generalizing q us done with
    | nil =>
      cases hq
      rwa [List.append_nil]
    | cons t rest ih =>
      obtain ⟨-, hq⟩ | ⟨a, more, updates, hext, hlast, rfl⟩ := extendTargets_cons_eq_ok hq
      · exact ih h hq
      · have := ih (hstep h hk hcandidate hv ha hext) hlast
        rwa [List.append_assoc] at this
  -- from factor to factor; those to come have the sources of the beginning
  have hfactors : ∀ {ks : List Nat} {q q' done us}, ks.Nodup →
      (∀ k ∈ ks, sources q d k = sources p d k) → P q done →
      s.propagateFactors r d q ks = .ok (q', us) → P q' (done ++ us) := by
    intro ks q q' done us hks hsources h hq
    induction ks generalizing q us done with
    | nil =>
      cases hq
      rwa [List.append_nil]
    | cons k rest ih =>
      rw [List.nodup_cons] at hks
      rw [List.forall_mem_cons] at hsources
      obtain ⟨⟨next, first⟩, hfirst, hq⟩ := bind_eq_ok_iff.1 hq
      obtain ⟨⟨last, more⟩, hmore, hq⟩ := bind_eq_ok_iff.1 hq
      cases hq
      rw [← List.append_assoc]
      refine ih hks.2 (fun j hj => ?_) ?_ hmore
      · rw [(onlyAt_propagateFactor hfirst).sources_eq d fun heq => hks.1 (heq ▸ hj)]
        exact hsources.2 j hj
      · unfold propagateFactor at hfirst
        split at hfirst
        · rename_i hk
          split at hfirst
          · cases hfirst
            rwa [List.append_nil]
          · rename_i towards source hcandidate
            obtain ⟨-, hv, ha, -⟩ := candidate_spec (hproper h) hcandidate
            exact htargets h hk (hsources.1 ▸ hcandidate) hv ha hfirst
        · cases hfirst
          rwa [List.append_nil]
  exact hfactors List.nodup_range (fun _ _ => rfl) h hq

end preserves

section lengthens

/-- Each tensor has the axes of its sharding, with further ones in the dimensions that the updates
are for. -/
structure Lengthens (m : Mesh) (r : Rule) (shardings : TensorRef → Option TensorSharding)
    (us : List FactorUpdate) (p : Projection) : Prop where
  proper : p.Proper m
  placed : ∀ u ∈ us, (Propagator.placeOf r u).isSome
  tensors : ∀ t x mapping, p.tensor? t = some x → r.mapping? t = some mapping →
    x.Lengthens m mapping (shardings t)
      fun i => ∃ u ∈ us, u.target = t ∧ Propagator.placeOf r u = some (mapping, i)

/-- A projection has the axes of the shardings. -/
theorem lengthens_ofShardings {sig : Signature} (hverify : r.verify sig = .ok ())
    {shardings : Side → List (Option TensorSharding)} {m : Mesh}
    (hs : ∀ t, ∀ x ∈ Projection.shardingAt shardings t, x.Valid m)
    (hp : Projection.ofShardings m r (shardings .operand) (shardings .result) = .ok p) :
    Lengthens m r (Projection.shardingAt shardings) [] p := by
  refine ⟨fun t x hx => ?_, nofun, fun t x mapping hx hmapping => ?_⟩
  · obtain ⟨mapping, hmapping, hproject⟩ := (Projection.tensor?_eq_some_iff hp).1 hx
    obtain ⟨_, -, hmaps⟩ := Rule.exists_maps_of_verify hverify hmapping
    exact TensorFactors.proper_project (hs t) hmaps.nodup hproject
  · obtain ⟨_, hmapping', hproject⟩ := (Projection.tensor?_eq_some_iff hp).1 hx
    cases hmapping.symm.trans hmapping'
    obtain ⟨_, -, hmaps⟩ := Rule.exists_maps_of_verify hverify hmapping
    exact (TensorFactors.lengthens_project (hs t) hmaps hproject).mono (by simp)

/-- Factor `k`, at `place` among the factors `fs` of dimension `i`, takes some of what it lacks of
the candidate: it is open, nothing overflows it, the factors before it are used up, and those behind
it have no axes. -/
structure Expands (s : FactorStep) (r : Rule) (k : Nat) (towards taken : List AxisRef)
    (mapping : Mapping) (i place : Nat) (fs : List Nat) (x : TensorFactors) (f : FactorSharding) :
    Prop where
  position : mapping.positionOf k = some (i, place)
  dim : mapping.dims[i]? = some fs
  placed : fs[place]? = some k
  factor : x.factor? k = some f
  unclosed : f.closed = false
  overflow : f.overflow = []
  major : ∀ j ∈ fs.take place, ∃ y, x.factor? j = some y ∧
    r.sizeOf? j = some (totalSize s.mesh y.axes)
  minor : f.minorMost = true ∨ ∀ j ∈ fs.drop (place + 1), ∀ y, x.factor? j = some y → y.axes = []
  grows : ∃ rest size, stripPrefix? s.mesh towards f.axes = some rest ∧ r.sizeOf? k = some size ∧
    s.grow size f.minorMost (x.usedExcept k) (totalSize s.mesh f.axes) rest = .ok taken

/-- A target that is extended has such a factor. -/
theorem exists_expands (h : s.extension r p k towards t = .ok (a :: more)) :
    ∃ mapping i place fs x f, r.mapping? t = some mapping ∧ p.tensor? t = some x ∧
      s.Expands r k towards (a :: more) mapping i place fs x f := by
  unfold extension at h
  split at h
  · cases h
  · rename_i x hx
    split at h
    · cases h
    · rename_i f hf
      split at h
      · rename_i hcan
        split at h
        · rename_i rest size hstrip hsize
          unfold canExpand at hcan
          split at hcan
          · cases hcan
          · rename_i mapping i place hplace
            obtain ⟨_, hmapping, hplace⟩ := Option.bind_eq_some_iff.1 hplace
            obtain ⟨_, hposition, heq⟩ := Option.map_eq_some_iff.1 hplace
            cases heq
            obtain ⟨fs, hfs, hk⟩ := Mapping.positionOf_eq_some hposition
            simp only [Mapping.factorsOf_eq hfs, Bool.and_eq_true, Bool.not_eq_true',
              List.isEmpty_iff, Bool.or_eq_true, List.all_eq_true, Option.all_eq_true,
              Option.any_eq_true, decide_eq_true_eq, eq_comm (b := r.sizeOf? _)] at hcan
            exact ⟨mapping, i, place, fs, x, f, hmapping, hx, hposition, hfs, hk, hf,
              hcan.1.1.1, hcan.1.1.2, hcan.1.2, hcan.2, rest, size, hstrip, hsize, h⟩
        · cases h
      · cases h

theorem takes_of_extension (hp : p.Proper s.mesh) (hv : AllValid s.mesh towards)
    (ha : Apart s.mesh towards) (hext : s.extension r p k towards t = .ok (a :: more)) :
    Takes s.mesh p t k (a :: more) := by
  obtain ⟨_, heq, htakes⟩ := exists_extension (r := r) (k := k) (t := t) hp hv ha
  cases hext.symm.trans heq
  exact htakes.resolve_left (List.cons_ne_nil a more)

/-- A further update is for one dimension. -/
theorem asked_append {u : FactorUpdate} {mapping mapping' : Mapping} {i j : Nat}
    (hplace : Propagator.placeOf r u = some (mapping, i))
    (h : ∃ w ∈ us ++ [u], w.target = t ∧ Propagator.placeOf r w = some (mapping', j)) :
    (t = u.target ∧ j = i) ∨
      ∃ w ∈ us, w.target = t ∧ Propagator.placeOf r w = some (mapping', j) := by
  obtain ⟨w, hw, htarget, hj⟩ := h
  rcases List.mem_append.1 hw with hw | hw
  · exact .inr ⟨w, hw, htarget, hj⟩
  · rw [List.mem_singleton.1 hw] at htarget hj
    cases hplace.symm.trans hj
    exact .inl ⟨htarget.symm, rfl⟩

variable (hr : ∀ t mapping, r.mapping? t = some mapping → mapping.dims.flatten.Nodup)

include hr

variable (source) in
/-- The update for what a target takes is for a dimension that it lengthens. -/
theorem Lengthens.setAxes (h : Lengthens s.mesh r shardings us p) (hv : AllValid s.mesh towards)
    (ha : Apart s.mesh towards) (hext : s.extension r p k towards t = .ok (a :: more)) :
    Lengthens s.mesh r shardings (us ++ [⟨k, t, source⟩])
      (p.setAxes t k (axesOf p t k ++ a :: more)) := by
  obtain ⟨mapping, dim, place, fs, x, f, hmapping, hx, hexpands⟩ := exists_expands hext
  have htakes := takes_of_extension h.proper hv ha hext
  have hproper := htakes.setAxes h.proper
  have hmore : AllValid s.mesh (a :: more) := by
    obtain ⟨_, _, -, -, hv, -⟩ := htakes
    exact (allValid_append.1 hv).2
  have haxes : axesOf p t k = f.axes := by simp [axesOf, Projection.factor?, hx, hexpands.factor]
  have hplace : Propagator.placeOf r ⟨k, t, source⟩ = some (mapping, dim) := by
    rw [Propagator.placeOf, hmapping, Option.bind_some, hexpands.position]
    rfl
  refine ⟨hproper, fun u hu => ?_, fun t' y mapping' hy hmapping' => ?_⟩
  · rcases List.mem_append.1 hu with hu | hu
    · exact h.placed u hu
    · rw [List.mem_singleton.1 hu, hplace]
      rfl
  · have hy' := hy
    rw [Projection.tensor?_setAxes] at hy
    split at hy
    · rename_i heq
      subst heq
      cases hmapping.symm.trans hmapping'
      rw [hx, Option.map_some, haxes] at hy
      cases hy
      refine (TensorFactors.Lengthens.setAxes (h.tensors _ x mapping hx hmapping)
        (hr _ _ hmapping) hexpands.dim hexpands.placed hexpands.factor hexpands.unclosed
        hexpands.overflow hexpands.minor hmore (List.cons_ne_nil a more) (hproper _ _ hy')).mono ?_
      exact fun i hi => (asked_append hplace hi).imp_left And.right
    · rename_i hne
      exact (h.tensors t' y mapping' hy hmapping').mono fun i hi =>
        (asked_append hplace hi).resolve_left fun heq => hne heq.1

/-- A step lengthens the dimensions that it has updates for, in tensors of the operation. -/
theorem lengthens_propagate (h : Lengthens s.mesh r shardings [] p)
    (hq : s.propagate r d p = .ok (q, us)) :
    Lengthens s.mesh r shardings us q ∧ ∀ u ∈ us, (q.tensor? u.target).isSome := by
  refine ⟨propagate_preserves (P := fun p us => Lengthens s.mesh r shardings us p)
    (fun h => h.proper) (fun h _ _ hv ha hext => h.setAxes _ hr hv ha hext) h hq, fun u hu => ?_⟩
  obtain ⟨_, _, hadvance, hadvances⟩ := exists_propagate (s := s) (r := r) (d := d) h.proper
  cases hq.symm.trans hadvance
  exact Projection.tensor?_isSome (hadvances.refs.symm ▸ (hadvances.updates u hu).1)

end lengthens

section saturated

/-- Without an update no target has taken anything. -/
theorem extendTargets_eq_nil (h : s.extendTargets r k towards source p ts = .ok (q, [])) :
    q = p ∧ ∀ t ∈ ts, s.extension r p k towards t = .ok [] := by
  induction ts with
  | nil =>
    cases h
    exact ⟨rfl, nofun⟩
  | cons t rest ih =>
    obtain ⟨hext, h⟩ | ⟨_, _, _, -, -, heq⟩ := extendTargets_cons_eq_ok h
    · exact ⟨(ih h).1, List.forall_mem_cons.2 ⟨hext, (ih h).2⟩⟩
    · cases heq

/-- No target can be extended towards the candidate of the factor. -/
def Saturated (s : FactorStep) (r : Rule) (d : Direction) (p : Projection) (k : Nat) : Prop :=
  r.factors[k]?.any flows = true → ∀ towards source,
    s.candidate (sources p d k) = some (towards, source) →
    ∀ t ∈ targets p d k, s.extension r p k towards t = .ok []

theorem propagateFactor_eq_nil (h : s.propagateFactor r d p k = .ok (q, [])) :
    q = p ∧ Saturated s r d p k := by
  unfold propagateFactor at h
  split at h
  · split at h
    · rename_i hnone
      cases h
      refine ⟨rfl, fun _ towards source hsome => ?_⟩
      rw [hnone] at hsome
      cases hsome
    · rename_i towards source hcandidate
      obtain ⟨rfl, hall⟩ := extendTargets_eq_nil h
      refine ⟨rfl, fun _ towards' source' hsome => ?_⟩
      cases hcandidate.symm.trans hsome
      exact hall
  · rename_i hflows
    cases h
    exact ⟨rfl, fun hk => absurd hk hflows⟩

theorem propagateFactors_eq_nil (h : s.propagateFactors r d p ks = .ok (q, [])) :
    q = p ∧ ∀ k ∈ ks, Saturated s r d p k := by
  induction ks with
  | nil =>
    cases h
    exact ⟨rfl, nofun⟩
  | cons k rest ih =>
    obtain ⟨⟨next, first⟩, hfirst, h⟩ := bind_eq_ok_iff.1 h
    obtain ⟨⟨last, more⟩, hmore, h⟩ := bind_eq_ok_iff.1 h
    obtain ⟨rfl, hnil⟩ := Prod.mk.inj (Except.ok.inj h)
    obtain ⟨rfl, rfl⟩ := List.append_eq_nil_iff.1 hnil
    obtain ⟨rfl, hk⟩ := propagateFactor_eq_nil hfirst
    exact ⟨(ih hmore).1, List.forall_mem_cons.2 ⟨hk, (ih hmore).2⟩⟩

/-- A step without updates leaves the projection as it is, which is saturated. -/
theorem propagate_eq_nil (h : s.propagate r d p = .ok (q, [])) :
    q = p ∧ ∀ k, Saturated s r d p k := by
  obtain ⟨rfl, hall⟩ := propagateFactors_eq_nil h
  refine ⟨rfl, fun k hk => hall k (List.mem_range.2 ?_) hk⟩
  cases hf : r.factors[k]? with
  | none => rw [hf] at hk; cases hk
  | some f => exact (List.getElem?_eq_some_iff.1 hf).1

end saturated
end FactorStep

namespace ShardingTable

variable {program : Program} {m : Mesh} {r : Rule} {t : ShardingTable} {name : String} {v i : Nat}
  {mapping : Mapping} {fs : List Nat} {x : TensorFactors} {changed : Nat → Prop}

/-- A dimension that has been lengthened can be refined. -/
theorem exists_refine (ht : t.Sound program) (hm : program.mesh name = .ok m)
    (hunit : m.NoUnitAxes) (hname : ∀ s ∈ t.get v, s.meshName = name)
    (hmaps : r.Maps mapping (program.shapeOf v)) (h : x.Lengthens m mapping (t.get v) changed)
    (hfs : mapping.dims[i]? = some fs) (hi : changed i) :
    ∃ t', t.refine v i (x.dimAxes m mapping i) name m = some t' := by
  -- a value with a dimension exists
  have hdim : i < (program.shapeOf v).length :=
    hmaps.rank ▸ (List.getElem?_eq_some_iff.1 hfs).1
  have hlt : v < t.length := by
    rw [ht.length_eq]
    by_contra hlt
    rw [Program.shapeOf, List.getElem?_eq_none (Nat.not_lt.1 hlt)] at hdim
    cases hdim
  have hentry := List.getElem?_eq_getElem hlt
  generalize t[v] = entry at hentry
  have hget : t.get v = entry.sharding := by
    rw [ShardingTable.get, hentry]
    rfl
  rw [hget] at hname h
  have hmesh : (entry.sharding.getD (.fullyOpen name entry.rank)).meshName = name := by
    cases hs : entry.sharding with
    | none => rfl
    | some s => exact hname s hs
  obtain ⟨hrank, hvalid⟩ := ht.valid_getD hentry hmesh hm
  obtain ⟨s', hs'⟩ := (h.getD name entry.rank).exists_refineDim hunit hvalid hmaps hrank hfs hi
  exact ⟨_, refine_eq_some_iff.2 ⟨entry, s', hentry, hmesh, hs', rfl⟩⟩

end ShardingTable

namespace Propagator

open FactorStep

variable {g : Propagator} {m : Mesh} {o : Operation} {r : Rule} {p : Projection} {d : Direction}
  {t : ShardingTable} {name : String}

/-- The projection of an operation has the axes of its shardings. -/
theorem lengthens_ofShardings (ht : t.Sound g.program)
    (hr : r.verify (g.program.signatureOf o) = .ok ()) (hm : g.program.mesh name = .ok m)
    (hname : commonMesh (o.operands.map t.get ++ o.results.map t.get) = some name)
    (hp : Projection.ofShardings m r (o.operands.map t.get) (o.results.map t.get) = .ok p) :
    Lengthens m r (fun x => (o.value? x).bind t.get) [] p := by
  simp only [← shardingAt_map_get]
  exact FactorStep.lengthens_ofShardings hr (valid_shardingAt ht hm hname) hp

theorem exists_dim_of_placeOf {u : FactorUpdate} {mapping : Mapping} {i : Nat}
    (h : placeOf r u = some (mapping, i)) :
    r.mapping? u.target = some mapping ∧ ∃ fs, mapping.dims[i]? = some fs ∧ u.factor ∈ fs := by
  obtain ⟨_, hmapping, hplace⟩ := Option.bind_eq_some_iff.1 h
  obtain ⟨⟨dim, place⟩, hposition, heq⟩ := Option.map_eq_some_iff.1 hplace
  cases heq
  obtain ⟨fs, hfs, hfactor⟩ := Mapping.positionOf_eq_some hposition
  exact ⟨hmapping, fs, hfs, List.mem_of_getElem? hfactor⟩

/-- The first of the factors that have changed makes the operation ask for its dimension. -/
theorem exists_mem_updatesOf {u : FactorUpdate} {rest : List FactorUpdate} {mapping : Mapping}
    {i : Nat} {updates : List ShardingUpdate}
    (h : updatesOf m o r p [] (u :: rest) = .ok updates)
    (hplace : placeOf r u = some (mapping, i)) :
    ∃ w ∈ updates, o.valueAt u.target = .ok w.value ∧ w.dim = i ∧
      w.axes = ((p.tensor? u.target).map fun t => t.dimAxes m mapping i).getD [] := by
  obtain ⟨hdrops, -⟩ | ⟨mapping', i', v, _, more, hplace', -, hv, -, -, rfl⟩ :=
    updatesOf_cons_eq_ok h
  · cases hdrops mapping i hplace
  · cases hplace.symm.trans hplace'
    exact ⟨_, List.mem_cons_self, hv, rfl, rfl⟩

/-- Where an operation over one mesh is refused all it asks for, its projection is saturated. -/
theorem Refused.saturated (h : Refused g o r d t) (ht : t.Sound g.program)
    (hr : r.verify (g.program.signatureOf o) = .ok ()) (hm : g.program.mesh name = .ok m)
    (hunit : m.NoUnitAxes)
    (hname : commonMesh (o.operands.map t.get ++ o.results.map t.get) = some name)
    (hp : Projection.ofShardings m r (o.operands.map t.get) (o.results.map t.get) = .ok p)
    (k : Nat) :
    Saturated (g.factorStep m) r d p k := by
  obtain ⟨decision, hdecide, hrefused⟩ := h
  simp only [decide, hname] at hdecide
  obtain ⟨_, hm', hdecide⟩ := bind_eq_ok_iff.1 hdecide
  cases hm.symm.trans hm'
  obtain ⟨_, hp', hdecide⟩ := bind_eq_ok_iff.1 hdecide
  cases hp.symm.trans hp'
  obtain ⟨⟨q, us⟩, hq, hdecide⟩ := bind_eq_ok_iff.1 hdecide
  obtain ⟨updates, hupdates, hdecide⟩ := bind_eq_ok_iff.1 hdecide
  cases hdecide
  have hstart := lengthens_ofShardings ht hr hm hname hp
  obtain ⟨hlast, htensors⟩ := lengthens_propagate (s := g.factorStep m) (fun _ _ hmapping =>
    (exists_maps hr hmapping).choose_spec.2.nodup) hstart hq
  cases us with
  | nil => exact (propagate_eq_nil hq).2 k
  | cons u rest =>
    -- the first update would be accepted
    obtain ⟨⟨mapping, i⟩, hplace⟩ :=
      Option.isSome_iff_exists.1 (hlast.placed u List.mem_cons_self)
    obtain ⟨w, hw, hv, rfl, haxes⟩ := exists_mem_updatesOf hupdates hplace
    obtain ⟨x, hx⟩ := Option.isSome_iff_exists.1 (htensors u List.mem_cons_self)
    have hv := Operation.valueAt_eq_ok_iff.1 hv
    obtain ⟨hmapping, fs, hfs, -⟩ := exists_dim_of_placeOf hplace
    obtain ⟨_, hv', hmaps⟩ := exists_maps hr hmapping
    cases hv.symm.trans hv'
    have hlengthens := hlast.tensors u.target x mapping hx hmapping
    rw [hv, Option.bind_some] at hlengthens
    obtain ⟨t', ht'⟩ := ShardingTable.exists_refine ht hm hunit
      (fun s hs => meshName_of_value? hname hv hs) hmaps hlengthens hfs
      ⟨u, List.mem_cons_self, rfl, hplace⟩
    have hnone := hrefused _ rfl w hw
    rw [haxes, hx, Option.map_some, Option.getD_some, ht'] at hnone
    cases hnone

end Propagator
end MeshSharding
