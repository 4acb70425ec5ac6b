import MeshSharding.Proofs.Propagation.Admission
import MeshSharding.Proofs.Propagation.Growth

/-! Termination of runs. Every refinement that is accepted covers further places of the axes,
and only then do operations join the queue, so the room in the meshes bounds the steps. -/
namespace MeshSharding
namespace Propagator

open AxisList ShardingTable

variable {g : Propagator} {directionOf : Operation → Direction}

/-- The shardings are valid, and the queue holds operations of the program, each once. -/
structure Ready (g : Propagator) (s : State) : Prop where
  sound : s.table.Sound g.program
  nodup : s.queue.Nodup
  lt : ∀ i ∈ s.queue, i < g.program.operations.length

/-- The state `s'` is reached from `s` by processing `n` operations, with `k` refinements
accepted: the table has grown by as many places at least, and all that is processed was in the
queue or joined it with a refinement. -/
structure Progress (g : Propagator) (n k : Nat) (s s' : State) : Prop where
  ready : Ready g s'
  grows : s.table.Grows g.program s'.table
  step : s'.recorder.step = s.recorder.step + k
  weight : s.table.weight g.program + k ≤ s'.table.weight g.program
  queue : n + s'.queue.length ≤ s.queue.length + g.program.operations.length * k

section progress

variable {n n' k k' : Nat} {s s' s'' : State}

theorem Progress.refl (hs : Ready g s) : Progress g 0 0 s s :=
  ⟨hs, .refl hs.sound, rfl, Nat.le_refl _, by omega⟩

theorem Progress.trans (h : Progress g n k s s') (h' : Progress g n' k' s' s'') :
    Progress g (n + n') (k + k') s s'' := by
  refine ⟨h'.ready, h.grows.trans h'.grows, ?_, ?_, ?_⟩
  · rw [h'.step, h.step, Nat.add_assoc]
  · have := h.weight
    have := h'.weight
    omega
  · have := h.queue
    have := h'.queue
    rw [Nat.mul_add]
    omega

/-- The accepted refinements fit into the room of the meshes. -/
theorem Progress.accepted_le (h : Progress g n k s s') :
    k ≤ g.program.values.length * g.program.capacity := by
  have := h.weight
  have := weight_le h.ready.sound
  omega

end progress

section step

variable {s : State} {operation : Nat}

theorem nodup_foldl_enqueue {queue : List Nat} (h : queue.Nodup) (joining : List Nat) :
    (joining.foldl enqueue queue).Nodup := by
  induction joining generalizing queue with
  | nil => exact h
  | cons i rest ih =>
    refine ih ?_
    unfold enqueue
    split
    · exact h
    · rename_i hi
      refine List.nodup_append.2 ⟨h, List.nodup_singleton i, fun a ha b hb => ?_⟩
      rw [List.mem_singleton.1 hb]
      exact ne_of_mem_of_not_mem ha hi

theorem mem_foldl_enqueue {queue joining : List Nat} {i : Nat}
    (h : i ∈ joining.foldl enqueue queue) : i ∈ queue ∨ i ∈ joining := by
  induction joining generalizing queue with
  | nil => exact .inl h
  | cons j rest ih =>
    rcases ih h with hi | hi
    · unfold enqueue at hi
      split at hi
      · exact .inl hi
      · rcases List.mem_append.1 hi with hi | hi
        · exact .inl hi
        · exact .inr (List.mem_singleton.1 hi ▸ List.mem_cons_self)
    · exact .inr (List.mem_cons_of_mem _ hi)

theorem lt_of_mem_neighbours {p : Program} (hp : p.Linked) {v i : Nat}
    (h : i ∈ neighbours p v) : i < p.operations.length := by
  rcases List.mem_append.1 h with h | h
  · obtain ⟨x, hx, hi⟩ := Option.bind_eq_some_iff.1 (Option.mem_toList.1 h)
    exact hp.producer_lt x (List.mem_of_getElem? hx) i hi
  · obtain ⟨o, ho, -⟩ := Program.mem_usersOf.1 h
    exact (List.getElem?_eq_some_iff.1 ho).1

theorem Ready.length_queue_le (hs : Ready g s) :
    s.queue.length ≤ g.program.operations.length := by
  have hsub : s.queue ⊆ List.range g.program.operations.length :=
    fun i hi => List.mem_range.2 (hs.lt i hi)
  simpa using (List.subperm_of_subset hs.nodup hsub).length_le

/-- One update: it is refused, or one more refinement is accepted. -/
theorem exists_progress_applyUpdate (operation : Nat) (hg : g.program.Linked)
    (hm : g.program.NoUnitAxes) (hs : Ready g s) {d : Decision} (hd : d.Safe g.program)
    {u : ShardingUpdate}
    (hu : u ∈ d.updates) : ∃ k, Progress g 0 k s (g.applyUpdate operation d s u) := by
  obtain ⟨hv, ha⟩ := hd.axes u hu
  rcases applyUpdate_cases g operation d s u with ⟨-, h⟩ | ⟨t, hrefine, htable, hqueue, hstep⟩
  · exact ⟨0, h.symm ▸ .refl hs⟩
  · have hready : Ready g (g.applyUpdate operation d s u) := by
      refine ⟨htable ▸ hs.sound.refine hd.mesh hv ha hrefine,
        hqueue ▸ nodup_foldl_enqueue hs.nodup _, fun i hi => ?_⟩
      rw [hqueue] at hi
      rcases mem_foldl_enqueue hi with hi | hi
      · exact hs.lt i hi
      · exact lt_of_mem_neighbours hg hi
    refine ⟨1, hready, ?_, hstep, ?_, ?_⟩
    · rw [htable]
      exact grows_refine hs.sound hd.mesh hrefine
    · rw [htable]
      exact weight_lt_of_refine hm hs.sound hd.mesh hv hrefine
    · have := hready.length_queue_le
      omega

theorem exists_progress_foldl (hg : g.program.Linked) (hm : g.program.NoUnitAxes)
    (hs : Ready g s) {d : Decision} (hd : d.Safe g.program) {updates : List ShardingUpdate}
    (hu : updates ⊆ d.updates) :
    ∃ k, Progress g 0 k s (updates.foldl (g.applyUpdate operation d) s) := by
  induction updates generalizing s with
  | nil => exact ⟨0, .refl hs⟩
  | cons u rest ih =>
    rw [List.cons_subset] at hu
    obtain ⟨k, hfirst⟩ := exists_progress_applyUpdate operation hg hm hs hd hu.1
    obtain ⟨k', hrest⟩ := ih hfirst.ready hu.2
    exact ⟨k + k', hfirst.trans hrest⟩

/-- An operation that leaves the queue is processed without an error. -/
theorem exists_process (directionOf : Operation → Direction) (hg : g.program.Linked)
    (hm : g.program.NoUnitAxes) (hr : g.program.RulesVerify) (hs : Ready g s) {rest : List Nat}
    (hqueue : s.queue = operation :: rest) :
    ∃ next k, g.process directionOf { s with queue := rest } operation = .ok next ∧
      Progress g 1 k s next := by
  have hnodup := hs.nodup
  have hlt := hs.lt
  rw [hqueue] at hnodup hlt
  have hs' : Ready g { s with queue := rest } :=
    ⟨hs.sound, (List.nodup_cons.1 hnodup).2, fun i hi => hlt i (List.mem_cons_of_mem _ hi)⟩
  obtain ⟨o, ho⟩ : ∃ o, g.program.operations[operation]? = some o :=
    ⟨_, List.getElem?_eq_getElem (hlt operation List.mem_cons_self)⟩
  obtain ⟨decision, hask, hsafe⟩ : ∃ decision, g.ask directionOf s.table o = .ok decision ∧
      ∀ x ∈ decision, x.Safe g.program := by
    unfold ask
    split
    · exact ⟨none, rfl, nofun⟩
    · exact ⟨none, rfl, nofun⟩
    · rename_i rule hrule _
      exact exists_decide hs.sound (hr o (List.mem_of_getElem? ho) rule hrule) _
  obtain ⟨k, hk⟩ : ∃ k, Progress g 0 k { s with queue := rest }
      (g.applyAll operation { s with queue := rest } decision) := by
    cases decision with
    | none => exact ⟨0, .refl hs'⟩
    | some d => exact exists_progress_foldl hg hm hs' (hsafe d rfl) (List.Subset.refl _)
  refine ⟨_, k, process_eq_ok_iff.2 ⟨_, decision, ho, hask, rfl⟩, hk.ready, hk.grows, hk.step,
    hk.weight, ?_⟩
  have := hk.queue
  rw [hqueue, List.length_cons]
  dsimp only at this
  omega

end step

section runs

variable {n k n' k' : Nat} {s s' s'' final : State}

/-- The run takes `n` operations from the queue and accepts `k` refinements. -/
inductive Runs (g : Propagator) (directionOf : Operation → Direction) :
    Nat → Nat → State → State → Prop
  | refl (s : State) : Runs g directionOf 0 0 s s
  | step {n k j operation : Nat} {rest : List Nat} {s next last : State}
      (hqueue : s.queue = operation :: rest)
      (hprocess : g.process directionOf { s with queue := rest } operation = .ok next)
      (hstep : next.recorder.step = s.recorder.step + j)
      (h : Runs g directionOf n k next last) : Runs g directionOf (1 + n) (j + k) s last

theorem Runs.keeps {P : ShardingTable → Prop} (h : Runs g directionOf n k s s') (hg : g.Keeps P)
    (hs : P s.table) : P s'.table := by
  induction h with
  | refl => exact hs
  | @step _ _ _ operation rest s _ _ _ hprocess _ _ ih =>
    exact ih (hg directionOf operation { s with queue := rest } _ hs hprocess)

theorem Runs.progress (hg : g.program.Linked) (hm : g.program.NoUnitAxes)
    (hr : g.program.RulesVerify) (hs : Ready g s) (h : Runs g directionOf n k s s') :
    Progress g n k s s' := by
  induction h with
  | refl s => exact .refl hs
  | @step n k j operation rest s next last hqueue hprocess hstep _ ih =>
    obtain ⟨next', j', hprocess', hfirst⟩ :=
      exists_process directionOf hg hm hr hs hqueue
    cases hprocess.symm.trans hprocess'
    obtain rfl : j = j' := Nat.add_left_cancel (hstep.symm.trans hfirst.step)
    exact hfirst.trans (ih hfirst.ready)

/-- A run that empties the queue is the one that draining takes. -/
theorem Runs.drain_eq (h : Runs g directionOf n k s final) (hempty : final.queue = [])
    {steps : Nat} (hsteps : n ≤ steps) : g.drain directionOf steps s = .ok final := by
  induction h generalizing steps with
  | refl s => cases steps <;> (unfold drain; rw [hempty])
  | @step n k j operation rest s next last hqueue hprocess _ _ ih =>
    obtain ⟨steps, rfl⟩ : ∃ i, steps = i + 1 := ⟨steps - 1, by omega⟩
    unfold drain
    simp only [hqueue, hprocess, bind, Except.bind]
    exact ih hempty (by omega)

/-- Every run comes to an end. -/
theorem exists_runs (directionOf : Operation → Direction) (hg : g.program.Linked)
    (hm : g.program.NoUnitAxes) (hr : g.program.RulesVerify) (hs : Ready g s) :
    ∃ n k final, Runs g directionOf n k s final ∧ final.queue = [] := by
  generalize hroom : g.program.operations.length *
    (g.program.values.length * g.program.capacity - s.table.weight g.program)
      + s.queue.length = room
  induction room using Nat.strongRecOn generalizing s with
  | ind room ih =>
    cases hqueue : s.queue with
    | nil => exact ⟨0, 0, s, .refl s, hqueue⟩
    | cons operation rest =>
      obtain ⟨next, j, hprocess, hfirst⟩ :=
        exists_process directionOf hg hm hr hs hqueue
      have hless : g.program.operations.length *
          (g.program.values.length * g.program.capacity - next.table.weight g.program)
            + next.queue.length < room := by
        have hweight := hfirst.weight
        have hqueue := hfirst.queue
        have hmax := weight_le hfirst.ready.sound
        have hle : g.program.values.length * g.program.capacity - next.table.weight g.program + j
            ≤ g.program.values.length * g.program.capacity - s.table.weight g.program := by omega
        have := Nat.mul_le_mul_left g.program.operations.length hle
        rw [Nat.mul_add] at this
        omega
      obtain ⟨n, k, final, hruns, hempty⟩ := ih _ hless hfirst.ready rfl
      exact ⟨1 + n, j + k, final, .step hqueue hprocess hfirst.step hruns, hempty⟩

/-- All operations wait at the start. -/
def State.start (g : Propagator) (t : ShardingTable) (r : Recorder) : State :=
  ⟨List.range g.program.operations.length, t, r, false⟩

/-- A run over valid shardings ends: the meshes have room for only so many refinements, and
each lets an operation be processed once more at most. Meanwhile shardings only grow. -/
theorem exists_run (directionOf : Operation → Direction) (hg : g.program.Linked)
    (hm : g.program.NoUnitAxes) (hr : g.program.RulesVerify) {t : ShardingTable}
    (ht : t.Sound g.program) (r : Recorder) :
    (∃ processed accepted final,
      Runs g directionOf processed accepted (.start g t r) final ∧ final.queue = [] ∧
      accepted ≤ g.program.values.length * g.program.capacity ∧
      processed ≤ g.program.operations.length * (1 + accepted) ∧
      ∀ steps ≥ processed, g.drain directionOf steps (.start g t r) = .ok final) ∧
    ∀ n k s n' k' s', Runs g directionOf n k (.start g t r) s →
      Runs g directionOf n' k' s s' → s.table.Grows g.program s'.table := by
  have hstart : Ready g (.start g t r) :=
    ⟨ht, List.nodup_range, fun i => List.mem_range.1⟩
  refine ⟨?_, fun n k s n' k' s' h h' => ?_⟩
  · obtain ⟨processed, accepted, final, hruns, hempty⟩ :=
      exists_runs directionOf hg hm hr hstart
    have hprogress := hruns.progress hg hm hr hstart
    refine ⟨processed, accepted, final, hruns, hempty, hprogress.accepted_le, ?_,
      fun steps hsteps => hruns.drain_eq hempty hsteps⟩
    have := hprogress.queue
    rw [hempty, State.start, List.length_nil, List.length_range] at this
    rw [Nat.mul_add]
    omega
  · have hs := (h.progress hg hm hr hstart).ready
    exact (h'.progress hg hm hr hs).grows

/-- Three values over a mesh with two places take at most six refinements. -/
theorem exists_run_relay :
    let g : Propagator := ⟨relay, .default, Policy.largest⟩
    let sharded : TableEntry := ⟨1, some (.ofDims "mesh" [.ofAxes [.full "x"] false])⟩
    let start : State := .start g [⟨1, none⟩, ⟨1, none⟩, sharded] (.start false false)
    ∃ processed accepted final,
      Runs g (fun _ => .both) processed accepted start final ∧ final.queue = [] ∧
      accepted ≤ 3 * 2 ∧ processed ≤ 2 * (1 + accepted) := by
  intro g sharded start
  have hvalid : (sharded.sharding.get rfl).validate (.grid 2 2 Nat.two_pos Nat.two_pos) [6]
      = .ok () := eq_ok_of_toOption (by decide +kernel)
  have hsound : Sound relay [⟨1, none⟩, ⟨1, none⟩, sharded] := by
    refine ⟨rfl, fun value s hs => ?_⟩
    rcases value with _ | _ | _ | value
    · cases hs
    · cases hs
    · cases hs
      exact ⟨_, rfl, hvalid⟩
    · cases hs
  obtain ⟨⟨n, k, final, hruns, hempty, hk, hn, -⟩, -⟩ := exists_run (g := g)
    (fun _ => .both) linked_relay Admission.noUnitAxes_relay Admission.rulesVerify_relay hsound (.start false false)
  exact ⟨n, k, final, hruns, hempty, hk, hn⟩

end runs

end Propagator
end MeshSharding
