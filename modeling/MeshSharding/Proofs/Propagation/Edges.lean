import MeshSharding.Proofs.Propagation.Acceptance
import MeshSharding.Proofs.Propagation.Converged

/-! Recorded edges. An edge has what a refinement has added to a dimension, counted in the order of
the refinements. So the axes of the user and then those of the edges of a dimension are, when they
are merged, the axes that the dimension ends up with. -/
namespace MeshSharding

open AxisList ShardingTable

namespace Provenance

/-- The axes that edges have appended to a dimension of a value, one after the other. -/
def appended (p : Provenance) (value dim : Nat) : List AxisRef :=
  (p.edges.filter fun e => e.target = value ∧ e.dim = dim).flatMap (·.axes)

end Provenance

namespace Recorder

variable {r r' r'' : Recorder} {m : Mesh} {value operation source target dim : Nat}
  {before after axes : List AxisRef}

theorem record_refine (h : r.recordsEdges = true) (m : Mesh)
    (operation source target dim : Nat) (before after : List AxisRef) :
    (r.refine m operation source target dim before after).recordsEdges = true ∧
      (r.refine m operation source target dim before after).record.edges = r.record.edges ++
        [⟨r.step + 1, operation, source, target, dim, (stripPrefix? m after before).getD []⟩] := by
  simp only [refine, addEdge, addOrigins, setOrigins]
  split <;> simp [h]

/-- Nothing has been refined between the two records. -/
structure Unrefined (r r' : Recorder) : Prop where
  recordsEdges : r'.recordsEdges = r.recordsEdges
  step : r'.step = r.step
  edges : r'.record.edges = r.record.edges

theorem Unrefined.refl (r : Recorder) : Unrefined r r := ⟨rfl, rfl, rfl⟩

theorem Unrefined.trans (h : Unrefined r r') (h' : Unrefined r' r'') : Unrefined r r'' :=
  ⟨h'.recordsEdges.trans h.recordsEdges, h'.step.trans h.step, h'.edges.trans h.edges⟩

theorem unrefined_addUserAxes (r : Recorder) (value : Nat) (axes : List AxisRef) :
    Unrefined r (r.addUserAxes value axes) := by
  unfold addUserAxes
  split
  · exact ⟨rfl, rfl, rfl⟩
  · exact .refl r

/-- The edges are recorded, and they are numbered from one. -/
structure Counts (r : Recorder) : Prop where
  recordsEdges : r.recordsEdges = true
  step : r.step = r.record.edges.length
  numbers : r.record.edges.map (·.step) = List.range' 1 r.record.edges.length

theorem Counts.refine (h : r.Counts) (m : Mesh) (operation source target dim : Nat)
    (before after : List AxisRef) :
    (r.refine m operation source target dim before after).Counts := by
  obtain ⟨hrecords, hedges⟩ :=
    record_refine h.recordsEdges m operation source target dim before after
  refine ⟨hrecords, ?_, ?_⟩
  · rw [refine_step, hedges, h.step, List.length_append, List.length_singleton]
  · rw [hedges, List.map_append, h.numbers, List.length_append, List.length_singleton,
      List.range'_concat, h.step]
    simp [Nat.add_comm]

end Recorder

namespace Provenance

theorem appended_concat {p q : Provenance} {e : Edge} (h : q.edges = p.edges ++ [e])
    (value dim : Nat) : q.appended value dim
      = p.appended value dim ++ if e.target = value ∧ e.dim = dim then e.axes else [] := by
  rw [appended, h, List.filter_append, List.flatMap_append]
  congr 1
  by_cases he : e.target = value ∧ e.dim = dim <;> simp [he]

end Provenance

namespace Admission

open Propagator (axesOf relay)

variable {g : Propagator} {p q : Program} {t t' : ShardingTable} {r r' : Recorder} {m : Mesh}
  {name : String} {v i value dim : Nat} {axes : List AxisRef} {level : Option Nat}
  {user current : TensorSharding} {heuristics : List Heuristic} {provenance : Provenance}

section refinement

/-- The axes of the user and those of the edges of a dimension, merged, are its current ones. -/
def Explains (p : Program) (t : ShardingTable) (record : Provenance) : Prop :=
  ∀ (value dim : Nat) (m : Mesh), (∀ s, t.get value = some s → p.mesh s.meshName = .ok m) →
    equivalent m (axesOf p.table value dim ++ record.appended value dim) (axesOf t value dim) = true

/-- A refinement adds to its dimension what its edge has, and leaves the others alone. -/
theorem Explains.refine (h : Explains p t r.record) (hr : r.recordsEdges = true)
    (ht : t.Sound p) (hm : p.mesh name = .ok m) (hv : AllValid m axes)
    (hrefine : t.refine v i axes name m = some t') (operation source : Nat) :
    Explains p t' (r.refine m operation source v i (axesOf t v i) axes).record := by
  intro value dim m' hmesh
  obtain ⟨added, hstrip, -, -, hmerge⟩ := exists_added_of_refine ht hm hv hrefine
  obtain ⟨s, hs, -, hname, hget⟩ := exists_of_refine hrefine
  have hedges := (Recorder.record_refine hr m operation source v i (axesOf t v i) axes).2
  rw [Provenance.appended_concat hedges, axesOf_of_refine hrefine, hstrip, Option.getD_some]
  have hover : value = v → p.mesh name = .ok m' := by
    rintro rfl
    have hover := hmesh _ hget
    rw [← hname]
    exact hover
  have hbefore : ∀ s, t.get value = some s → p.mesh s.meshName = .ok m' := by
    intro s' hs'
    by_cases hvalue : value = v
    · subst hvalue
      rw [hs', Option.getD_some] at hs
      rw [← hs, hname]
      exact hover rfl
    · exact hmesh s' (by rw [get_of_refine hrefine hvalue, hs'])
  have hold := h value dim m' hbefore
  rw [equivalent, decide_eq_true_eq] at hold ⊢
  by_cases hdim : value = v ∧ dim = i
  · obtain ⟨rfl, rfl⟩ := hdim
    cases hm.symm.trans (hover rfl)
    rw [if_pos ⟨rfl, rfl⟩, if_pos ⟨rfl, rfl⟩, mergeAdjacent_mergeAdjacent, ← List.append_assoc,
      mergeAdjacent_append_congr hold rfl, hmerge]
  · rw [if_neg hdim, if_neg fun h => hdim ⟨h.1.symm, h.2.symm⟩, List.append_nil, hold]

end refinement

section admission

theorem unrefined_admitDim (m : Mesh) (level : Option Nat) (value : Nat)
    (current : TensorSharding) (r : Recorder) (dim : Nat) (user : DimSharding) :
    Recorder.Unrefined r (admitDim m level value current r dim user).2 := by
  unfold admitDim
  cases current.dims[dim]? with
  | none => exact .refl r
  | some d =>
    dsimp only
    split
    · exact .refl r
    · split
      · exact Recorder.unrefined_addUserAxes ..
      · split <;> exact .refl r

theorem unrefined_admitDims (m : Mesh) (level : Option Nat) (value dim : Nat)
    (users : List DimSharding) (current : TensorSharding) (r : Recorder) :
    Recorder.Unrefined r (admitDims m level value dim users current r).2 := by
  induction users generalizing dim current r with
  | nil => exact .refl r
  | cons u rest ih => exact (unrefined_admitDim m level value current r dim u).trans (ih ..)

theorem unrefined_admitSharding (m : Mesh) (level : Option Nat) (value : Nat)
    (user : TensorSharding) (current : Option TensorSharding) (r : Recorder) :
    Recorder.Unrefined r (admitSharding m level value user current r).2 := by
  unfold admitSharding
  split
  · exact unrefined_admitDims ..
  · split
    · exact unrefined_admitDims ..
    · exact .refl r

/-- Admission refines nothing. -/
theorem unrefined_admitValues {shardings : List (Option TensorSharding)}
    (h : admitValues p level value shardings t r = .ok (t', r')) : Recorder.Unrefined r r' := by
  induction shardings generalizing value t r with
  | nil => cases h; exact .refl _
  | cons first rest ih =>
    cases first with
    | none => exact ih h
    | some user =>
      obtain ⟨m, -, h⟩ := bind_eq_ok_iff.1 h
      obtain ⟨_, -, h⟩ := bind_eq_ok_iff.1 h
      exact (unrefined_admitSharding ..).trans (ih h)

end admission

section propagated

/-- What is known of the table and its edges at every step. -/
structure Traced (p : Program) (t : ShardingTable) (r : Recorder) : Prop where
  sound : t.Sound p
  counts : r.Counts
  explains : Explains p t r.record

theorem maintains_traced (hg : g.program.RulesVerify) : g.Maintains (Traced g.program) :=
  Propagator.maintains_of_update hg (fun _ _ h => h.sound)
    fun _ operation hsafe u hu _ _ _ h hrefine =>
      ⟨h.sound.refine hsafe.mesh (hsafe.axes u hu).1 (hsafe.axes u hu).2 hrefine,
        h.counts.refine .., h.explains.refine h.counts.recordsEdges h.sound hsafe.mesh
          (hsafe.axes u hu).1 hrefine operation u.source⟩

/-- Recorded edges explain what propagation makes of a program without priorities. They are
numbered from one, and the axes of the user with those of the edges of a dimension behind them are
equivalent to the axes that the dimension has in the end. -/
theorem equivalent_appended_of_propagate (hrules : g.program.RulesVerify)
    (hvalues : ∀ v ∈ g.program.values, Import.checkValue g.program v = .ok ())
    (hunranked : ∀ v s, g.program.sharding? v = some s → s.Unranked)
    (hedges : g.options.recordsEdges = true)
    (h : propagate g heuristics = .ok (q, provenance)) :
    provenance.edges.map (·.step) = List.range' 1 provenance.edges.length ∧
      ∀ (value dim : Nat) (m : Mesh),
        (∀ s, q.sharding? value = some s → q.mesh s.meshName = .ok m) →
        equivalent m (axesOf g.program.table value dim ++ provenance.appended value dim)
          (axesOf q.table value dim) = true := by
  obtain ⟨r, hlevels, hstore, -, -, rfl⟩ := exists_runLevels_of_propagate hrules hvalues h
  rw [levels_eq_of_unranked hunranked] at hlevels
  obtain ⟨⟨t₁, r₁⟩, hadmit, hlevels⟩ := bind_eq_ok_iff.1 hlevels
  obtain ⟨⟨t₂, r₂⟩, hpasses, hlevels⟩ := bind_eq_ok_iff.1 hlevels
  cases hlevels
  obtain ⟨_, hadmit'⟩ := exists_admitValues_table hvalues hunranked
    (.start g.options.recordsOrigins g.options.recordsEdges)
  cases hadmit.symm.trans hadmit'
  obtain ⟨hrecords, hstep, hnone⟩ := unrefined_admitValues hadmit
  have hstart : Traced g.program g.program.table r₁ := by
    refine ⟨Program.sound_table hvalues, ⟨hrecords.trans hedges, ?_, ?_⟩, fun v i m _ => ?_⟩
    · rw [hstep, hnone]
      rfl
    · rw [hnone]
      rfl
    · rw [Provenance.appended, hnone]
      simp [equivalent, Recorder.start, Provenance.empty]
  have htraced := (maintains_traced hrules).runPasses hstart hpasses
  refine ⟨htraced.counts.numbers, fun value dim m hmesh => htraced.explains value dim m ?_⟩
  intro s hs
  rw [Program.get_table] at hs
  have hmesh := hmesh s hs
  rw [hstore] at hmesh
  exact hmesh

/-- The operand has a further axis, which its edge appends to the result. -/
theorem equivalent_appended_of_propagate_trailing :
    let sharded (axes : List AxisRef) : TensorSharding := .ofDims "mesh" [.ofAxes axes false]
    let p : Program := .single (Mesh.grid 2 2 Nat.two_pos Nat.two_pos)
      [([4], some (sharded [.full "x", .full "y"]))] "negate" (Rule.identity [4] 1 1) [4]
      (some (sharded [.full "x"]))
    let g : Propagator := ⟨p, { Options.default with recordsEdges := true }, Policy.largest⟩
    ∃ q provenance, propagate g Heuristic.standard = .ok (q, provenance) ∧
      provenance.edges = [⟨1, 0, 0, 1, 0, [.full "y"]⟩] ∧
      provenance.edges.map (·.step) = List.range' 1 provenance.edges.length ∧
      ∀ (value dim : Nat) (m : Mesh),
        (∀ s, q.sharding? value = some s → q.mesh s.meshName = .ok m) →
        equivalent m (axesOf p.table value dim ++ provenance.appended value dim)
          (axesOf q.table value dim) = true := by
  intro sharded p g
  have h : (do
      let (_, provenance) ← propagate g Heuristic.standard
      return provenance.edges) = Except.ok [⟨1, 0, 0, 1, 0, [.full "y"]⟩] :=
    eq_ok_of_toOption (by decide +kernel)
  obtain ⟨⟨q, provenance⟩, hpropagate, h⟩ := bind_eq_ok_iff.1 h
  have hrules : p.RulesVerify := Program.rulesVerify_single _ _ _
    (eq_ok_of_toOption (by decide +kernel))
  have hvalues : ∀ v ∈ p.values, Import.checkValue p v = .ok () :=
    List.forall_mem_cons.2 ⟨eq_ok_of_toOption (by decide +kernel),
      List.forall_mem_singleton.2 (eq_ok_of_toOption (by decide +kernel))⟩
  have hunranked : ∀ v s, p.sharding? v = some s → s.Unranked := by
    intro v s hs d hd
    rcases v with _ | _ | v <;> cases hs <;> cases List.mem_singleton.1 hd <;> rfl
  exact ⟨q, provenance, hpropagate, Except.ok.inj h,
    equivalent_appended_of_propagate (g := g) hrules hvalues hunranked rfl hpropagate⟩

end propagated
end Admission
end MeshSharding
