import MeshSharding.Proofs.AxisList.Subdivision
import MeshSharding.Proofs.Propagation.Admission

/-! Levels do not see what later ones admit. Two programs that differ only in dimensions of the
user that are hidden at a level go through the same states up to that level: admission skips a
hidden dimension whatever its axes are, and the passes do not read the shardings of the user. -/
namespace MeshSharding

namespace DimSharding

/-- Without the axes and the openness, if the dimension is hidden at the level. -/
def masked (level : Nat) (d : DimSharding) : DimSharding :=
  if Admission.isHidden (some level) d then { d with axes := [], closed := false } else d

@[simp] theorem masked_priority (level : Nat) (d : DimSharding) :
    (d.masked level).priority = d.priority := by
  unfold masked
  split <;> rfl

end DimSharding

namespace TensorSharding

def masked (level : Nat) (s : TensorSharding) : TensorSharding := s.mapDims (·.masked level)

@[simp] theorem masked_meshName (level : Nat) (s : TensorSharding) :
    (s.masked level).meshName = s.meshName := rfl

@[simp] theorem masked_rank (level : Nat) (s : TensorSharding) :
    (s.masked level).rank = s.rank := mapDims_rank ..

end TensorSharding

namespace Program

/-- What of the program a level may see: the axes and the openness of the dimensions that are
hidden at it are left out of the shardings. -/
def masked (level : Nat) (p : Program) : Program :=
  { p with values := p.values.map fun v => { v with sharding := v.sharding.map (·.masked level) } }

end Program

namespace Propagator

variable {g g' : Propagator}

/-- Both propagate alike: there may be other shardings in the program, but the operations, the
producers, the meshes and the options are the same. -/
structure Alike (g g' : Propagator) : Prop where
  meshes : g'.program.meshes = g.program.meshes
  operations : g'.program.operations = g.program.operations
  producers : g'.program.values.map (·.producer) = g.program.values.map (·.producer)
  options : g'.options = g.options
  policy : g'.policy = g.policy

theorem Alike.decide_eq (h : Alike g g') : g'.decide = g.decide := by
  have hmesh : g'.program.mesh = g.program.mesh := by
    funext name
    rw [Program.mesh, h.meshes]
    rfl
  have hstep : g'.factorStep = g.factorStep := by
    funext m
    rw [factorStep, h.options, h.policy]
    rfl
  funext o rule d t
  unfold decide
  rw [hmesh, hstep]

theorem Alike.neighbours_eq (h : Alike g g') : neighbours g'.program = neighbours g.program := by
  funext value
  have hproducer := congrArg (·[value]?) h.producers
  simp only [List.getElem?_map] at hproducer
  have hbind : ∀ p : Program, p.values[value]?.bind (·.producer)
      = (p.values[value]?.map (·.producer)).join := fun p => by cases p.values[value]? <;> rfl
  unfold neighbours Program.usersOf
  rw [hbind, hbind, hproducer, h.operations]

theorem Alike.process_eq (h : Alike g g') : g'.process = g.process := by
  have hupdate : g'.applyUpdate = g.applyUpdate := by
    funext operation d s u
    unfold applyUpdate
    rw [h.neighbours_eq]
  have hoperation : g'.program.operation = g.program.operation := by
    funext id
    unfold Program.operation
    rw [h.operations]
  funext directionOf s operation
  unfold process
  rw [hoperation, h.decide_eq, hupdate]

theorem Alike.drain_eq (h : Alike g g') (directionOf : Operation → Direction) (steps : Nat)
    (s : State) : g'.drain directionOf steps s = g.drain directionOf steps s := by
  induction steps generalizing s with
  | zero => unfold drain; rfl
  | succ steps ih =>
    unfold drain
    rw [h.process_eq]
    cases s.queue with
    | nil => rfl
    | cons operation rest =>
      dsimp only
      congr 1
      funext next
      exact ih next

theorem Alike.passesFrom_eq (h : Alike g g') (heuristics : List Heuristic) (passes : List Nat)
    (t : ShardingTable) (r : Recorder) :
    g'.passesFrom heuristics passes t r = g.passesFrom heuristics passes t r := by
  induction passes generalizing t r with
  | nil => rfl
  | cons pass rest ih =>
    unfold passesFrom run
    rw [h.drain_eq, h.operations]
    congr 1
    funext s
    exact ih ..

theorem Alike.runPasses_eq (h : Alike g g') (heuristics : List Heuristic) (t : ShardingTable)
    (r : Recorder) : g'.runPasses heuristics t r = g.runPasses heuristics t r := by
  unfold runPasses run
  rw [h.options, h.drain_eq, h.operations, h.passesFrom_eq]

end Propagator

namespace Admission

variable {m : Mesh} {p : Program} {g : Propagator} {level own : Nat}

theorem isHidden_of_lt {d : DimSharding} (hown : own ≤ level)
    (h : isHidden (some level) d = true) : isHidden (some own) d = true := by
  unfold isHidden at h ⊢
  cases hd : d.priority with
  | none => simp [hd] at h
  | some priority =>
    simp only [hd, decide_eq_true_eq] at h ⊢
    omega

section admission

/-- What is hidden at a level is hidden at every earlier one, whether masked or not. -/
theorem admitDim_masked (hown : own ≤ level) (value : Nat) (current : TensorSharding)
    (r : Recorder) (dim : Nat) (u : DimSharding) :
    admitDim m (some own) value current r dim (u.masked level)
      = admitDim m (some own) value current r dim u := by
  by_cases hu : isHidden (some level) u = true
  · have hhidden := isHidden_of_lt hown hu
    have hmasked : isHidden (some own) (u.masked level) = true := by
      unfold isHidden at hhidden ⊢
      rwa [DimSharding.masked_priority]
    unfold admitDim
    cases current.dims[dim]? with
    | none => rfl
    | some d => simp only [hhidden, hmasked, if_true]
  · rw [DimSharding.masked, if_neg hu]

theorem admitDims_masked (hown : own ≤ level) (value dim : Nat) (users : List DimSharding)
    (current : TensorSharding) (r : Recorder) :
    admitDims m (some own) value dim (users.map (·.masked level)) current r
      = admitDims m (some own) value dim users current r := by
  induction users generalizing dim current r with
  | nil => rfl
  | cons u rest ih =>
    rw [List.map_cons, admitDims, admitDims, admitDim_masked hown, ih]

theorem admitSharding_masked (hown : own ≤ level) (value : Nat) (user : TensorSharding)
    (current : Option TensorSharding) (r : Recorder) :
    admitSharding m (some own) value (user.masked level) current r
      = admitSharding m (some own) value user current r := by
  have hdims := admitDims_masked (m := m) hown value 0 user.dims
  cases current with
  | none =>
    have hstart : unadmitted (user.masked level) = unadmitted user := by
      simp [unadmitted, TensorSharding.masked, TensorSharding.mapDims, Function.comp_def]
    unfold admitSharding
    dsimp only
    rw [hstart]
    exact hdims _ r
  | some s =>
    unfold admitSharding
    dsimp only
    rw [TensorSharding.masked_meshName, TensorSharding.masked_rank]
    split
    · exact hdims s r
    · rfl

theorem admitValues_masked (hown : own ≤ level) (value : Nat)
    (shardings : List (Option TensorSharding)) (t : ShardingTable) (r : Recorder) :
    admitValues (p.masked level) (some own) value
        (shardings.map fun s => s.map (·.masked level)) t r
      = admitValues p (some own) value shardings t r := by
  induction shardings generalizing value t r with
  | nil => rfl
  | cons first rest ih =>
    cases first with
    | none => exact ih (value + 1) t r
    | some user =>
      rw [List.map_cons, Option.map_some, admitValues, admitValues]
      congr 1
      funext m
      dsimp only
      rw [admitSharding_masked hown]
      congr 1
      funext t'
      exact ih ..

end admission

section levels

theorem userShardings_masked (level : Nat) (p : Program) :
    userShardings (p.masked level) = (userShardings p).map fun s => s.map (·.masked level) := by
  simp [userShardings, Program.masked]

theorem priorities_masked (level : Nat) (p : Program) :
    priorities (p.masked level) = priorities p := by
  unfold priorities
  rw [userShardings_masked, List.filterMap_map]
  congr 1
  induction userShardings p with
  | nil => rfl
  | cons s rest ih =>
    cases s with
    | none => exact ih
    | some s =>
      simp only [List.filterMap_cons, Function.comp, Option.map_some, id, List.flatMap_cons] at ih ⊢
      rw [ih]
      congr 1
      simp [TensorSharding.masked, TensorSharding.mapDims, List.filterMap_map, Function.comp]

theorem alike_masked (level : Nat) (g : Propagator) :
    g.Alike { g with program := g.program.masked level } :=
  ⟨rfl, rfl, by simp [Program.masked], rfl, rfl⟩

theorem runLevels_masked {levels : List (Option Nat)}
    (hlevels : ∀ x ∈ levels, ∃ own ≤ level, x = some own) (heuristics : List Heuristic)
    (t : ShardingTable) (r : Recorder) :
    runLevels { g with program := g.program.masked level } heuristics levels t r
      = runLevels g heuristics levels t r := by
  induction levels generalizing t r with
  | nil => rfl
  | cons first rest ih =>
    rw [List.forall_mem_cons] at hlevels
    obtain ⟨⟨own, hown, rfl⟩, hrest⟩ := hlevels
    rw [runLevels, runLevels, userShardings_masked, admitValues_masked hown]
    congr 1
    funext admitted
    dsimp only
    rw [(alike_masked level g).runPasses_eq]
    congr 1
    funext next
    exact ih hrest ..

/-- What propagation has reached behind the first levels. -/
def reached (g : Propagator) (heuristics : List Heuristic) (levels : List (Option Nat)) :
    Except Error (ShardingTable × Recorder) :=
  runLevels g heuristics levels (.ofRanks (g.program.values.map Value.rank))
    (.start g.options.recordsOrigins g.options.recordsEdges)

theorem runLevels_append (g : Propagator) (heuristics : List Heuristic)
    (before after : List (Option Nat)) (t : ShardingTable) (r : Recorder) :
    runLevels g heuristics (before ++ after) t r
      = (do
          let (t, r) ← runLevels g heuristics before t r
          runLevels g heuristics after t r) := by
  induction before generalizing t r with
  | nil => rfl
  | cons level rest ih =>
    simp only [List.cons_append, runLevels, bind_assoc]
    congr 1
    funext admitted
    congr 1
    funext next
    exact ih ..

/-- Propagation goes on from what it has reached behind the first levels. -/
theorem propagate_eq_reached (heuristics : List Heuristic) {before after : List (Option Nat)}
    (h : levels g.program = before ++ after) : propagate g heuristics = (do
      let (t, r) ← reached g heuristics before
      let (t, r) ← runLevels g heuristics after t r
      return (store g.program t, r.record)) := by
  unfold propagate reached
  simp only [h, runLevels_append, bind_assoc]

theorem exists_levels_eq_append (h : level ∈ priorities p) :
    ∃ before after, levels p = before ++ some level :: after ∧
      ∀ x ∈ before ++ [some level], ∃ own ≤ level, x = some own := by
  obtain ⟨first, last, hsplit⟩ := List.append_of_mem h
  have hsorted : (priorities p).Pairwise (· < ·) := Sorted.pairwise_ofList _
  rw [hsplit, List.pairwise_append] at hsorted
  refine ⟨first.map some, last.map some, ?_, fun x hx => ?_⟩
  · unfold levels
    rw [hsplit]
    simp
  · rcases List.mem_append.1 hx with hx | hx
    · obtain ⟨own, hown, rfl⟩ := List.mem_map.1 hx
      exact ⟨own, Nat.le_of_lt (hsorted.2.2 own hown level List.mem_cons_self), rfl⟩
    · exact ⟨level, Nat.le_refl _, List.mem_singleton.1 hx⟩

/-- Two programs of which a level may see the same have the same levels up to this one, and
propagation has reached the same behind it. -/
theorem reached_eq_of_masked_eq {p q : Program} (h : p.masked level = q.masked level)
    (hlevel : level ∈ priorities p) (options : Options) (policy : Policy)
    (heuristics : List Heuristic) :
    ∃ before after, levels p = before ++ some level :: after ∧
      levels q = before ++ some level :: after ∧
      reached ⟨p, options, policy⟩ heuristics (before ++ [some level])
        = reached ⟨q, options, policy⟩ heuristics (before ++ [some level]) := by
  obtain ⟨before, after, hsplit, hearlier⟩ := exists_levels_eq_append hlevel
  have hpriorities : priorities q = priorities p := by
    rw [← priorities_masked level q, ← h, priorities_masked]
  have hmasked : ∀ p : Program, reached ⟨p, options, policy⟩ heuristics (before ++ [some level])
      = reached ⟨p.masked level, options, policy⟩ heuristics (before ++ [some level]) := by
    intro p
    have hranks : (p.masked level).values.map Value.rank = p.values.map Value.rank := by
      simp [Program.masked, Value.rank]
    unfold reached
    dsimp only
    rw [hranks]
    exact (runLevels_masked (g := ⟨p, options, policy⟩) hearlier heuristics _ _).symm
  refine ⟨before, after, hsplit, ?_, ?_⟩
  · unfold levels at hsplit ⊢
    rwa [hpriorities]
  · rw [hmasked p, hmasked q, h]

/-- Level 0 does not see what the user has asked for the last value at level 1. -/
theorem reached_eq_of_masked_eq_relay :
    let p := Propagator.relay
    let late : Value := ⟨[6], some (.ofDims "mesh" [⟨[.full "x", .full "y"], true, some 1⟩]), some 1⟩
    let q := { p with values := p.values.set 2 late }
    p ≠ q ∧ p.masked 0 = q.masked 0 ∧ 0 ∈ priorities p ∧ ∃ before after,
      levels p = before ++ some 0 :: after ∧ levels q = before ++ some 0 :: after ∧
      reached ⟨p, .default, Policy.largest⟩ Heuristic.standard (before ++ [some 0])
        = reached ⟨q, .default, Policy.largest⟩ Heuristic.standard (before ++ [some 0]) := by
  intro p late q
  have hmasked : p.masked 0 = q.masked 0 := by decide +kernel
  have hlevel : 0 ∈ priorities p := by decide +kernel
  exact ⟨by decide +kernel, hmasked, hlevel,
    reached_eq_of_masked_eq hmasked hlevel .default Policy.largest Heuristic.standard⟩

end levels
end Admission
end MeshSharding
