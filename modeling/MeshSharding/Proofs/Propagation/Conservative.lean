import MeshSharding.Proofs.AxisList.Whole
import MeshSharding.Proofs.Propagation.Acceptance
import MeshSharding.Proofs.Propagation.Converged
import MeshSharding.Proofs.Propagation.Legibility
import MeshSharding.Proofs.Propagation.Termination

/-! Conservative propagation. A factor takes only whole axes, and only as long as they divide it.
The factors before it are used up, so that the axes of the dimension divide the product of its
factors, and a refinement that is accepted appends whole axes to what the dimension has. -/
namespace MeshSharding

open AxisList TensorSharding

namespace FactorStep

variable {s : FactorStep} {size shards : Nat} {minorMost : Bool} {used l more : List AxisRef}

/-- A factor takes nothing, or the first axis, if it is a whole one that divides what is left. -/
theorem grow_cons_eq_ok_of_conservative (hs : s.conservative = true) {a : AxisRef}
    (h : s.grow size minorMost used shards (a :: l) = .ok more) :
    more = [] ∨ ∃ tail, a.isSub = false ∧ shards * a.size s.mesh ∣ size ∧
      s.grow size minorMost used (shards * a.size s.mesh) l = .ok tail ∧ more = a :: tail := by
  unfold grow at h
  rw [hs, Bool.true_and] at h
  split at h
  · cases h
    exact .inl rfl
  · rename_i hguard
    rw [Bool.or_eq_true, not_or, Bool.not_eq_true, Bool.not_eq_true] at hguard
    split at h
    · cases h
    · split at h
      · rename_i hmod
        obtain ⟨tail, htail, h⟩ := bind_eq_ok_iff.1 h
        cases h
        exact .inr ⟨tail, hguard.2, Nat.dvd_of_mod_eq_zero hmod, htail, rfl⟩
      · rw [if_pos rfl] at h
        cases h
        exact .inl rfl

/-- What a factor takes are whole axes, which divide it together with those that it has. -/
theorem whole_of_grow (hs : s.conservative = true) (hl : AllValid s.mesh l)
    (h : s.grow size minorMost used shards l = .ok more) :
    Whole s.mesh more ∧ (more ≠ [] → shards * totalSize s.mesh more ∣ size) := by
  induction l generalizing shards more with
  | nil =>
    cases h
    exact ⟨List.forall_mem_nil _, fun hne => absurd rfl hne⟩
  | cons a rest ih =>
    rw [allValid_cons] at hl
    obtain rfl | ⟨tail, hfull, hdvd, htail, rfl⟩ := grow_cons_eq_ok_of_conservative hs h
    · exact ⟨List.forall_mem_nil _, fun hne => absurd rfl hne⟩
    · obtain ⟨hwhole, htotal⟩ := ih hl.2 htail
      refine ⟨List.forall_mem_cons.2 ⟨⟨hl.1, hfull⟩, hwhole⟩, fun _ => ?_⟩
      rw [totalSize_cons, ← Nat.mul_assoc]
      cases tail with
      | nil => simpa using hdvd
      | cons b tail => exact htotal (List.cons_ne_nil b tail)

end FactorStep

namespace TensorFactors

variable {m : Mesh} {r : Rule} {mapping : Mapping} {s : Option TensorSharding} {x : TensorFactors}
  {k i place : Nat} {f : FactorSharding} {fs : List Nat} {more : List AxisRef}
  {changed : Nat → Prop}

/-- Nothing overflows a factor that its axes use up. -/
theorem overflow_dealOut {closed : Bool} {l : List AxisRef} {entries : List (Nat × FactorSharding)}
    (hl : AllValid m l) (h : dealOut m r closed fs l = .ok entries) : ∀ e ∈ entries,
      r.sizeOf? e.1 = some (totalSize m e.2.axes) → e.2.overflow = [] := by
  induction fs generalizing l entries with
  | nil => cases h; nofun
  | cons f rest ih =>
    cases rest with
    | nil => cases h; simp
    | cons g rest =>
      obtain ⟨share, others, htake, hothers, rfl⟩ := dealOut_cons_eq_ok h
      have htakes := (Share.take_eq_ok_iff hl).1 htake
      obtain ⟨hshare, hrest⟩ := allValid_append.1 (htakes.joined hl).2
      refine List.forall_mem_cons.2 ⟨fun hfull => htakes.overflow_eq_nil hl ?_, ih hrest hothers⟩
      rw [Rule.capacityOf_eq hfull]
      exact (Nat.max_eq_left (totalSize_pos (allValid_append.1 hshare).1)).symm

/-- The tensor has the axes of the sharding, with further whole ones in some of the dimensions.
Those that count as changed are cut evenly, and nothing overflows a factor that is used up. -/
structure Conserves (m : Mesh) (r : Rule) (mapping : Mapping) (s : Option TensorSharding)
    (changed : Nat → Prop) (x : TensorFactors) : Prop where
  used : ∀ fs ∈ mapping.dims, ∀ k ∈ fs, ∀ f, x.factor? k = some f →
    r.sizeOf? k = some (totalSize m f.axes) → f.overflow = []
  continues : ∀ (i : Nat) (fs : List Nat), mapping.dims[i]? = some fs →
    Continues m (dimOf s i).axes (x.joined fs)
  even : ∀ (i : Nat) (fs : List Nat), mapping.dims[i]? = some fs → changed i →
    totalSize m (x.joined fs) ∣ r.productOf fs

theorem conserves_project {shape : Shape} (hs : ∀ x ∈ s, x.Valid m) (hr : r.Maps mapping shape)
    (h : project m r mapping s = .ok x) : x.Conserves m r mapping s fun _ => False := by
  refine ⟨fun fs hfs k hk f hf hfull => ?_, fun i fs hfs => .of_eq (joined_project hs hr h hfs),
    fun _ _ _ => False.elim⟩
  obtain ⟨i, hi⟩ := List.getElem?_of_mem hfs
  obtain ⟨part, hpart, hkeys, hall⟩ := exists_part hs hr.nodup h hi
  rw [← hkeys] at hk
  obtain ⟨e, he, rfl⟩ := List.mem_map.1 hk
  cases hf.symm.trans (hall e he)
  exact overflow_dealOut (allValid_dimOf hs i) hpart e he hfull

theorem Conserves.mono {changed' : Nat → Prop} (h : x.Conserves m r mapping s changed)
    (hle : ∀ i, changed' i → changed i) : x.Conserves m r mapping s changed' :=
  { h with even := fun i fs hfs hi => h.even i fs hfs (hle i hi) }

/-- Factors that are used up multiply to their axes. -/
theorem Conserves.totalSize_joined_eq (h : x.Conserves m r mapping s changed)
    (hfs : fs ∈ mapping.dims) {ks : List Nat} (hks : ks ⊆ fs) (hfull : ∀ k ∈ ks, ∃ f,
      x.factor? k = some f ∧ r.sizeOf? k = some (totalSize m f.axes)) :
    totalSize m (x.joined ks) = r.productOf ks := by
  induction ks with
  | nil => rfl
  | cons k ks ih =>
    rw [List.cons_subset] at hks
    rw [List.forall_mem_cons] at hfull
    obtain ⟨⟨f, hf, hsize⟩, hrest⟩ := hfull
    have htail := ih hks.2 hrest
    rw [joined, List.flatMap_cons, totalSize_append, held_eq hf, h.used fs hfs k hks.1 f hf hsize,
      List.append_nil, ← joined, htail]
    simp only [Rule.productOf, List.map_cons, Sizes.product_cons, hsize, Option.getD_some]

/-- A factor behind others that are used up takes whole axes that divide it. -/
theorem Conserves.setAxes (h : x.Conserves m r mapping s changed) (hn : mapping.dims.flatten.Nodup)
    (hfs : mapping.dims[i]? = some fs) (hk : fs[place]? = some k) (hf : x.factor? k = some f)
    (hoverflow : f.overflow = []) (hmajor : ∀ j ∈ fs.take place, ∃ y,
      x.factor? j = some y ∧ r.sizeOf? j = some (totalSize m y.axes))
    (hminor : ∀ j ∈ fs.drop (place + 1), held x.factors j = []) (hmore : Whole m more) {size : Nat}
    (hsize : r.sizeOf? k = some size) (hdvd : totalSize m f.axes * totalSize m more ∣ size) :
    (x.setAxes k (f.axes ++ more)).Conserves m r mapping s fun j => j = i ∨ changed j := by
  have hmem := List.mem_of_getElem? hfs
  have hin := List.mem_of_getElem? hk
  have hnodup := (List.nodup_flatten.1 hn).1 fs hmem
  have hown := joined_setAxes hnodup hk hf hoverflow hminor more
  have hother : ∀ {j : Nat} {gs : List Nat}, mapping.dims[j]? = some gs → j ≠ i →
      (x.setAxes k (f.axes ++ more)).joined gs = x.joined gs := fun hgs hj =>
    joined_setAxes_of_not_mem (fun hkg => hj (Mapping.index_eq_of_mem hn hgs hkg hfs hin)) _
  refine ⟨fun gs hgs j hj y hy hfull => ?_, fun j gs hgs => ?_, fun j gs hgs hchanged => ?_⟩
  · rw [factor?_setAxes] at hy
    split at hy
    · rename_i hjk
      rw [hjk, hf] at hy
      cases hy
      exact hoverflow
    · exact h.used gs hgs j hj y hy hfull
  · by_cases hj : j = i
    · subst hj
      cases hfs.symm.trans hgs
      rw [hown]
      exact (h.continues j fs hfs).append hmore
    · rw [hother hgs hj]
      exact h.continues j gs hgs
  · by_cases hj : j = i
    · subst hj
      cases hfs.symm.trans hgs
      -- the dimension is cut by the used up factors, then by this one, and by none behind it
      have hsplit : fs = fs.take place ++ k :: fs.drop (place + 1) := by
        obtain ⟨hlt, rfl⟩ := List.getElem?_eq_some_iff.1 hk
        simp
      have hbefore := h.totalSize_joined_eq hmem (List.take_subset place fs) hmajor
      have hbehind : x.joined (fs.drop (place + 1)) = [] := List.flatMap_eq_nil_iff.2 hminor
      have hjoined : x.joined fs = x.joined (fs.take place) ++ (f.axes ++ []) := by
        conv_lhs => rw [hsplit, joined, List.flatMap_append, List.flatMap_cons, held_eq hf, hoverflow]
        rw [← joined, ← joined, hbehind, List.append_nil]
      have hproduct : r.productOf fs
          = r.productOf (fs.take place) * (size * r.productOf (fs.drop (place + 1))) := by
        conv_lhs => rw [hsplit]
        simp only [Rule.productOf, List.map_append, List.map_cons, Sizes.product_append,
          Sizes.product_cons, hsize, Option.getD_some]
      rw [hown, hjoined, List.append_nil, totalSize_append, totalSize_append, hbefore, hproduct,
        Nat.mul_assoc]
      exact Nat.mul_dvd_mul_left _ (Nat.dvd_mul_right_of_dvd hdvd _)
    · rw [hother hgs hj]
      exact h.even j gs hgs (hchanged.resolve_left hj)

end TensorFactors

namespace FactorStep

variable {s : FactorStep} {r : Rule} {p q : Projection} {d : Direction} {k : Nat}
  {towards more : List AxisRef} {t : TensorRef} {us : List FactorUpdate} {a : AxisRef}
  {shardings : TensorRef → Option TensorSharding}

/-- Each tensor has the axes of its sharding, with whole ones in the dimensions that the updates
are for, which they cut evenly. -/
def Conserves (m : Mesh) (r : Rule) (shardings : TensorRef → Option TensorSharding)
    (us : List FactorUpdate) (p : Projection) : Prop :=
  ∀ t x mapping, p.tensor? t = some x → r.mapping? t = some mapping →
    x.Conserves m r mapping (shardings t)
      fun i => ∃ u ∈ us, u.target = t ∧ Propagator.placeOf r u = some (mapping, i)

theorem conserves_ofShardings {sig : Signature} (hverify : r.verify sig = .ok ())
    {shardings : Side → List (Option TensorSharding)} {m : Mesh}
    (hs : ∀ t, ∀ x ∈ Projection.shardingAt shardings t, x.Valid m)
    (hp : Projection.ofShardings m r (shardings .operand) (shardings .result) = .ok p) :
    Conserves m r (Projection.shardingAt shardings) [] p := by
  intro t x mapping hx hmapping
  obtain ⟨_, hmapping', hproject⟩ := (Projection.tensor?_eq_some_iff hp).1 hx
  cases hmapping.symm.trans hmapping'
  obtain ⟨_, -, hmaps⟩ := Rule.exists_maps_of_verify hverify hmapping
  exact (TensorFactors.conserves_project (hs t) hmaps hproject).mono (by simp)

variable (source : TensorRef) in
theorem Lengthens.conserves_setAxes (h : Lengthens s.mesh r shardings us p)
    (hc : Conserves s.mesh r shardings us p) (hs : s.conservative = true)
    (hr : ∀ t mapping, r.mapping? t = some mapping → mapping.dims.flatten.Nodup)
    (hv : AllValid s.mesh towards) (hext : s.extension r p k towards t = .ok (a :: more)) :
    Conserves s.mesh r shardings (us ++ [⟨k, t, source⟩])
      (p.setAxes t k (axesOf p t k ++ a :: more)) := by
  obtain ⟨mapping, dim, place, fs, x, f, hmapping, hx, hexpands⟩ := exists_expands hext
  obtain ⟨rest, size, hstrip, hsize, hgrow⟩ := hexpands.grows
  have hf := hexpands.factor
  have haxes : axesOf p t k = f.axes := by simp [axesOf, Projection.factor?, hx, hf]
  have hplace : Propagator.placeOf r ⟨k, t, source⟩ = some (mapping, dim) := by
    rw [Propagator.placeOf, hmapping, Option.bind_some, hexpands.position]
    rfl
  have hlengthens := h.tensors t x mapping hx hmapping
  have hold := hlengthens.proper.allValid_axes hf
  have hrest := (stripPrefix?_eq_some hv hold hstrip).1
  obtain ⟨hwhole, hdvd⟩ := whole_of_grow hs hrest hgrow
  intro t' y mapping' hy hmapping'
  rw [Projection.tensor?_setAxes] at hy
  split at hy
  · rename_i heq
    subst heq
    cases hmapping.symm.trans hmapping'
    rw [hx, Option.map_some, haxes] at hy
    cases hy
    have hminor := hlengthens.held_eq_nil (hr _ _ hmapping) hexpands.dim hexpands.placed hf
      hexpands.minor
    refine ((hc t' x mapping hx hmapping).setAxes (hr _ _ hmapping) hexpands.dim hexpands.placed hf
      hexpands.overflow hexpands.major hminor hwhole hsize
      (hdvd (List.cons_ne_nil a more))).mono ?_
    exact fun i hi => (asked_append hplace hi).imp_left And.right
  · rename_i hne
    exact (hc t' y mapping' hy hmapping').mono fun i hi =>
      (asked_append hplace hi).resolve_left fun heq => hne heq.1

/-- A step in conservative mode appends whole axes, which cut the dimensions evenly. -/
theorem conserves_propagate (hs : s.conservative = true)
    (hr : ∀ t mapping, r.mapping? t = some mapping → mapping.dims.flatten.Nodup)
    (h : Lengthens s.mesh r shardings [] p) (hc : Conserves s.mesh r shardings [] p)
    (hq : s.propagate r d p = .ok (q, us)) : Conserves s.mesh r shardings us q :=
  (propagate_preserves
    (P := fun p us => Lengthens s.mesh r shardings us p ∧ Conserves s.mesh r shardings us p)
    (fun h => h.1.proper)
    (fun h _ _ hv ha hext => ⟨h.1.setAxes _ hr hv ha hext,
      h.1.conserves_setAxes _ h.2 hs hr hv hext⟩) ⟨h, hc⟩ hq).2

end FactorStep

namespace Propagator

open FactorStep

variable {g : Propagator} {directionOf : Operation → Direction} {o : Operation} {r : Rule}
  {d : Direction} {t t' : ShardingTable} {decision : Decision} {u : ShardingUpdate}

theorem conserves_ofShardings {m : Mesh} {name : String} {p : Projection}
    (ht : t.Sound g.program) (hr : r.verify (g.program.signatureOf o) = .ok ())
    (hm : g.program.mesh name = .ok m)
    (hname : commonMesh (o.operands.map t.get ++ o.results.map t.get) = some name)
    (hp : Projection.ofShardings m r (o.operands.map t.get) (o.results.map t.get) = .ok p) :
    Conserves m r (fun x => (o.value? x).bind t.get) [] p := by
  simp only [← shardingAt_map_get]
  exact FactorStep.conserves_ofShardings hr (valid_shardingAt ht hm hname) hp

/-- In conservative mode an operation asks to continue dimensions by whole axes, such that their
axes divide the product of the factors. -/
theorem continues_of_decide (hconservative : g.options.conservative = true)
    (ht : t.Sound g.program) (hr : r.verify (g.program.signatureOf o) = .ok ())
    (h : g.decide o r d t = .ok (some decision)) (hu : u ∈ decision.updates) :
    AllValid decision.mesh (axesOf t u.value u.dim) ∧
      Continues decision.mesh (axesOf t u.value u.dim) u.axes ∧
      ∃ x mapping fs, o.value? x = some u.value ∧ r.mapping? x = some mapping ∧
        mapping.dims[u.dim]? = some fs ∧
        totalSize decision.mesh u.axes ∣ r.productOf fs := by
  obtain ⟨p, q, us, hm, hname, hp, hq, hupdates⟩ := decide_eq_some h
  have hnodup : ∀ x mapping, r.mapping? x = some mapping → mapping.dims.flatten.Nodup :=
    fun _ _ hmapping => (exists_maps hr hmapping).choose_spec.2.nodup
  have hstart := lengthens_ofShardings ht hr hm hname hp
  obtain ⟨-, htensors⟩ := lengthens_propagate (s := g.factorStep decision.mesh) hnodup hstart hq
  have hconserves := conserves_propagate (s := g.factorStep decision.mesh) hconservative
    hnodup hstart (Propagator.conserves_ofShardings ht hr hm hname hp) hq
  obtain ⟨w, hw, mapping, hplace, hvalue, -, haxes⟩ := exists_of_mem_updatesOf hupdates hu
  obtain ⟨x, hx⟩ := Option.isSome_iff_exists.1 (htensors w hw)
  obtain ⟨hmapping, fs, hfs, -⟩ := exists_dim_of_placeOf hplace
  have hvalue := Operation.valueAt_eq_ok_iff.1 hvalue
  have htarget := hconserves w.target x mapping hx hmapping
  simp only [hvalue, Option.bind_some] at htarget
  have hmerge : mergeAdjacent decision.mesh u.axes
      = mergeAdjacent decision.mesh (x.joined fs) := by
    rw [haxes, hx, Option.map_some, Option.getD_some, TensorFactors.dimAxes_eq,
      Mapping.factorsOf_eq hfs, mergeAdjacent_mergeAdjacent]
    rfl
  refine ⟨?_, ?_, w.target, mapping, fs, hvalue, hmapping, hfs, ?_⟩
  · rw [ShardingTable.axesOf_eq]
    exact allValid_dimOf (fun s hs => (valid_of_value? ht hm hname hvalue hs).2) u.dim
  · have hcontinues := htarget.continues u.dim fs hfs
    rw [← ShardingTable.axesOf_eq] at hcontinues
    exact hcontinues.congr hmerge
  · rw [← totalSize_mergeAdjacent, hmerge, totalSize_mergeAdjacent]
    exact htarget.even u.dim fs hfs ⟨w, hw, rfl, hplace⟩

/-- The updates of an operation continue what the dimensions had when it decided on them. -/
theorem continues_foldl_applyUpdate (operation : Nat) {updates : List ShardingUpdate}
    (hupdates : ∀ u ∈ updates, Continues decision.mesh (axesOf t u.value u.dim) u.axes) {s : State}
    (hs : ∀ v i, Continues decision.mesh (axesOf t v i) (axesOf s.table v i)) (v i : Nat) :
    Continues decision.mesh (axesOf t v i)
      (axesOf (updates.foldl (g.applyUpdate operation decision) s).table v i) := by
  induction updates generalizing s with
  | nil => exact hs v i
  | cons u rest ih =>
    rw [List.forall_mem_cons] at hupdates
    refine ih hupdates.2 fun v i => ?_
    rcases applyUpdate_cases g operation decision s u with ⟨-, h⟩ | ⟨t', hrefine, htable, -, -⟩
    · rw [h]
      exact hs v i
    · rw [htable, ShardingTable.axesOf_of_refine hrefine]
      split
      · rename_i heq
        obtain ⟨rfl, rfl⟩ := heq
        exact hupdates.1.congr (mergeAdjacent_mergeAdjacent u.axes)
      · exact hs v i

/-- In a run from `start` an operation that leaves the queue has decided on updates, and when the
update `u` is the next one the table is `t`. -/
inductive Proposes (g : Propagator) (directionOf : Operation → Direction) (start : State)
    (o : Operation) (decision : Decision) (u : ShardingUpdate) : ShardingTable → Prop
  | intro {n k operation : Nat} {rest : List Nat} {s : State} {done behind : List ShardingUpdate}
      (hruns : Runs g directionOf n k start s) (hqueue : s.queue = operation :: rest)
      (ho : g.program.operations[operation]? = some o)
      (hask : g.ask directionOf s.table o = .ok (some decision))
      (hupdates : decision.updates = done ++ u :: behind) :
      Proposes g directionOf start o decision u
        (done.foldl (g.applyUpdate operation decision) { s with queue := rest }).table

/-- In conservative mode each refinement that is accepted in a run appends whole axes to its
dimension. The number of shards then divides the product of the factors that the rule maps the
dimension to, so the size of the dimension if that is their product. The tensor is the one that the
refinement is for: a value may be several operands. -/
theorem whole_of_proposes (hconservative : g.options.conservative = true)
    (hg : g.program.RulesVerify) {start : State} (hstart : start.table.Sound g.program)
    (hr : o.rule = some r) (h : g.Proposes directionOf start o decision u t)
    (hrefine : t.refine u.value u.dim u.axes decision.meshName decision.mesh = some t') :
    (∃ added, stripPrefix? decision.mesh (axesOf t' u.value u.dim) (axesOf t u.value u.dim)
        = some added ∧ ∀ a ∈ added, a.Valid decision.mesh ∧ a.isSub = false) ∧
      ∃ x mapping fs, o.value? x = some u.value ∧ r.mapping? x = some mapping ∧
        mapping.dims[u.dim]? = some fs ∧
        totalSize decision.mesh (axesOf t' u.value u.dim) ∣ r.productOf fs ∧
        ∀ size, (g.program.shapeOf u.value)[u.dim]? = some size → r.productOf fs = size →
          totalSize decision.mesh (axesOf t' u.value u.dim) ∣ size := by
  obtain @⟨_, _, operation, rest, s, done, behind, hruns, -, ho, hask, hupdates⟩ := h
  obtain ⟨_, hr', hdecide⟩ := ask_eq_some hask
  cases hr.symm.trans hr'
  have hrule := hg o (List.mem_of_getElem? ho) r hr
  have hsound := hruns.keeps (keeps_sound hg) hstart
  have hsafe := safe_of_decide hsound hrule hdecide
  have hcontinues := fun u hu => continues_of_decide hconservative hsound hrule hdecide (u := u) hu
  have hu : u ∈ decision.updates := hupdates ▸ by simp
  have hdone : done ⊆ decision.updates := hupdates ▸ List.subset_append_left ..
  obtain ⟨hvalid, hnew, x, mapping, fs, hvalue, hmapping, hfs, hdvd⟩ := hcontinues u hu
  have haxes := ShardingTable.axesOf_of_refine hrefine u.value u.dim
  rw [if_pos ⟨rfl, rfl⟩] at haxes
  rw [← totalSize_mergeAdjacent, ← haxes] at hdvd
  refine ⟨?_, x, mapping, fs, hvalue, hmapping, hfs, hdvd, fun size _ hsize => hsize ▸ hdvd⟩
  have hold := continues_foldl_applyUpdate (g := g) operation (s := { s with queue := rest })
    (fun u hu => (hcontinues u (hdone hu)).2.1) (fun _ _ => .of_eq rfl) u.value u.dim
  have hnow : (done.foldl (g.applyUpdate operation decision)
      { s with queue := rest }).table.Sound g.program :=
    sound_foldl_applyUpdate hsafe hdone hsound
  obtain ⟨added, hstrip, -⟩ := ShardingTable.exists_added_of_refine hnow hsafe.mesh
    (hsafe.axes u hu).1 hrefine
  refine ⟨added, ?_, hold.whole_of_stripPrefix? hvalid hnew hstrip⟩
  rw [haxes, stripPrefix?, mergeAdjacent_mergeAdjacent]
  exact hstrip

/-- Only the first axis of the operand divides the dimension of the result. -/
theorem whole_of_proposes_uneven :
    let m := Mesh.grid 2 4 Nat.two_pos (by decide)
    let r := Rule.identity [4] 1 1
    let p : Program := .single m [([4], some (.ofDims "mesh" [.ofAxes [.full "x", .full "y"] false]))]
      "negate" r [4] none
    let g : Propagator := ⟨p, { Options.default with conservative := true }, Policy.largest⟩
    let o : Operation := ⟨"negate", [0], [1], [], some r⟩
    let u : ShardingUpdate := ⟨1, 0, [.full "x"], 0⟩
    g.Proposes (fun _ => .both) (.start g p.table (.start false false)) o ⟨"mesh", m, [u]⟩ u
        p.table ∧
      ∃ t', p.table.refine 1 0 [.full "x"] "mesh" m = some t' ∧
        (∃ added, stripPrefix? m (axesOf t' 1 0) (axesOf p.table 1 0) = some added ∧
          ∀ a ∈ added, a.Valid m ∧ a.isSub = false) ∧
        ∃ x mapping fs, o.value? x = some 1 ∧ r.mapping? x = some mapping ∧
          mapping.dims[0]? = some fs ∧ totalSize m (axesOf t' 1 0) ∣ r.productOf fs ∧
          ∀ size, (p.shapeOf 1)[0]? = some size → r.productOf fs = size →
            totalSize m (axesOf t' 1 0) ∣ size := by
  intro m r p g o u
  have hproposes : g.Proposes (fun _ => .both) (.start g p.table (.start false false)) o
      ⟨"mesh", m, [u]⟩ u p.table :=
    @Proposes.intro g _ _ o _ u _ _ 0 [] _ [] [] (.refl _) rfl rfl
      (eq_ok_of_toOption (by decide +kernel)) rfl
  obtain ⟨t', hrefine⟩ : ∃ t', p.table.refine 1 0 [.full "x"] "mesh" m = some t' :=
    Option.isSome_iff_exists.1 (by decide +kernel)
  have hrules : p.RulesVerify := Program.rulesVerify_single _ _ _
    (eq_ok_of_toOption (by decide +kernel))
  have hvalues : ∀ v ∈ p.values, Import.checkValue p v = .ok () :=
    List.forall_mem_cons.2 ⟨eq_ok_of_toOption (by decide +kernel),
      List.forall_mem_singleton.2 (eq_ok_of_toOption (by decide +kernel))⟩
  exact ⟨hproposes, t', hrefine, whole_of_proposes (g := g) rfl hrules
    (Program.sound_table hvalues) rfl hproposes hrefine⟩

end Propagator
end MeshSharding
