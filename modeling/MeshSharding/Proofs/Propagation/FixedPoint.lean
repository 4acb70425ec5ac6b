import MeshSharding.Proofs.Propagation.Worklist

/-! Runs of the worklist end in a fixed point. An operation outside of the queue has nothing
left to do: this holds at the start, where all operations wait, and every step keeps it. -/
namespace MeshSharding
namespace Propagator

open ShardingTable

variable {g : Propagator} {directionOf : Operation → Direction}

/-- Every update that the operation computes on the table is refused. -/
def Settled (g : Propagator) (directionOf : Operation → Direction) (t : ShardingTable)
    (o : Operation) : Prop :=
  ∀ rule, o.rule = some rule → directionOf o ≠ .none →
    ∃ decision, g.decide o rule (directionOf o) t = .ok decision ∧
      ∀ d ∈ decision, ∀ u ∈ d.updates, t.refine u.value u.dim u.axes d.meshName d.mesh = none

theorem settled_iff {t : ShardingTable} {o : Operation} : Settled g directionOf t o ↔
    ∃ decision, g.ask directionOf t o = .ok decision ∧
      ∀ d ∈ decision, ∀ u ∈ d.updates,
        t.refine u.value u.dim u.axes d.meshName d.mesh = none := by
  unfold Settled ask
  cases o.rule with
  | none => simp
  | some rule => cases directionOf o <;> simp

/-- Whether an operation is settled depends only on the entries of its values. -/
theorem Settled.congr {t t' : ShardingTable} {o : Operation} (h : Settled g directionOf t o)
    (hentries : ∀ v ∈ o.touched, t'[v]? = t[v]?) : Settled g directionOf t' o := by
  rw [settled_iff] at h ⊢
  obtain ⟨decision, hask, hrefused⟩ := h
  refine ⟨decision, ?_, fun d hd u hu => ?_⟩
  · rw [ask_congr (t := t) fun v hv => by simp only [ShardingTable.get, hentries v hv]]
    exact hask
  · obtain rfl := Option.mem_def.1 hd
    obtain ⟨rule, -, hdecide⟩ := ask_eq_some hask
    exact refine_eq_none_congr (hentries _ (mem_touched_of_decide hdecide u hu))
      (hrefused d rfl u hu)

section step

variable {operation : Nat} {s s' : State}

/-- Every operation waits in the queue or is settled. -/
def Pending (g : Propagator) (directionOf : Operation → Direction) (queue : List Nat)
    (t : ShardingTable) : Prop :=
  ∀ (i : Nat) (o : Operation), g.program.operations[i]? = some o →
    i ∈ queue ∨ Settled g directionOf t o

/-- The operation that is processed joins the queue again unless it is settled, and so does
every other one whose values have changed. -/
theorem Pending.process (hg : g.program.Linked) {rest : List Nat}
    (h : Pending g directionOf (operation :: rest) s.table) (hrest : s.queue = rest)
    (hs : g.process directionOf s operation = .ok s') :
    Pending g directionOf s'.queue s'.table := by
  obtain ⟨current, decision, hcurrent, hask, rfl⟩ := process_eq_ok_iff.1 hs
  have hkept : ∀ i o, g.program.operations[i]? = some o → Settled g directionOf s.table o →
      i ∈ (g.applyAll operation s decision).queue
        ∨ Settled g directionOf (g.applyAll operation s decision).table o := by
    intro i o ho hsettled
    by_cases hall : ∀ v ∈ o.touched,
        (g.applyAll operation s decision).table[v]? = s.table[v]?
    · exact .inr (hsettled.congr hall)
    · obtain ⟨v, hv, hchanged⟩ : ∃ v ∈ o.touched,
          (g.applyAll operation s decision).table[v]? ≠ s.table[v]? := by simpa using hall
      exact .inl ((getElem?_applyAll s decision v).resolve_left hchanged
        (mem_neighbours hg ho hv))
  intro i o ho
  rcases h i o ho with hmem | hsettled
  · rcases List.mem_cons.1 hmem with rfl | hmem
    · obtain rfl : current = o := Option.some.inj (hcurrent.symm.trans ho)
      cases decision with
      | none => exact hkept i current ho (settled_iff.2 ⟨none, hask, nofun⟩)
      | some d =>
        rcases refused_or_queued g i d d.updates s with hnone | ⟨u, hu, hsub⟩
        · refine hkept i current ho (settled_iff.2 ⟨some d, hask, ?_⟩)
          rintro _ ⟨⟩ u hu
          exact hnone u hu
        · obtain ⟨rule, -, hdecide⟩ := ask_eq_some hask
          exact .inl (hsub (mem_neighbours hg ho (mem_touched_of_decide hdecide u hu)))
    · exact .inl ((prefix_applyAll g operation s decision).subset (hrest ▸ hmem))
  · exact hkept i o ho hsettled

end step

section run

variable {s final : State} {steps : Nat}

/-- Every operation of the queue takes a step. -/
theorem length_queue_le (hs : g.drain directionOf steps s = .ok final) :
    s.queue.length ≤ steps := by
  induction steps generalizing s with
  | zero =>
    unfold drain at hs
    split at hs <;> simp_all
  | succ steps ih =>
    unfold drain at hs
    split at hs
    · simp_all
    · rename_i operation rest hqueue
      obtain ⟨next, hnext, hs⟩ := bind_eq_ok_iff.1 hs
      obtain ⟨o, decision, -, -, rfl⟩ := process_eq_ok_iff.1 hnext
      have hlength := (prefix_applyAll g operation { s with queue := rest } decision).length_le
      have hlast := ih hs
      rw [hqueue, List.length_cons]
      dsimp only at hlength
      omega

theorem process_eq_self {operation : Nat} {o : Operation}
    (ho : g.program.operations[operation]? = some o) (h : Settled g directionOf s.table o) :
    g.process directionOf s operation = .ok s := by
  obtain ⟨decision, hask, hrefused⟩ := settled_iff.1 h
  refine process_eq_ok_iff.2 ⟨o, decision, ho, hask, ?_⟩
  cases decision with
  | none => rfl
  | some d => exact (foldl_applyUpdate_eq (hrefused d rfl)).symm

/-- Where all operations are settled, the queue drains without a change. -/
theorem drain_eq_self {t : ShardingTable} {r : Recorder} {changed : Bool} {queue : List Nat}
    (h : ∀ o ∈ g.program.operations, Settled g directionOf t o)
    (hqueue : ∀ i ∈ queue, i < g.program.operations.length) (hsteps : queue.length ≤ steps) :
    g.drain directionOf steps ⟨queue, t, r, changed⟩ = .ok ⟨[], t, r, changed⟩ := by
  induction queue generalizing steps with
  | nil => cases steps <;> rfl
  | cons operation rest ih =>
    obtain ⟨steps, rfl⟩ := Nat.exists_eq_succ_of_ne_zero (Nat.ne_zero_of_lt hsteps)
    have hlt := hqueue operation List.mem_cons_self
    unfold drain
    dsimp only
    rw [process_eq_self (List.getElem?_eq_getElem hlt) (h _ (List.getElem_mem hlt))]
    exact ih (fun i hi => hqueue i (List.mem_cons_of_mem _ hi)) (Nat.le_of_succ_le_succ hsteps)

/-- A run ends in a fixed point: every update of every operation is refused there, and
another run in the same directions changes nothing. -/
theorem settled_of_run (hg : g.program.Linked) {t : ShardingTable} {r : Recorder}
    (hs : g.run directionOf t r = .ok final) :
    (∀ o ∈ g.program.operations, Settled g directionOf final.table o) ∧
      ∀ r', g.run directionOf final.table r' = .ok ⟨[], final.table, r', false⟩ := by
  have hstart : Pending g directionOf (List.range g.program.operations.length) t := by
    intro i o ho
    exact .inl (List.mem_range.2 (List.getElem?_eq_some_iff.1 ho).1)
  obtain ⟨hend, hempty⟩ := drain_induction (P := fun s => Pending g directionOf s.queue s.table)
    (fun s operation rest next hqueue h hnext =>
      Pending.process (s := { s with queue := rest }) hg (hqueue ▸ h) rfl hnext) hstart hs
  rw [hempty] at hend
  have hsettled : ∀ o ∈ g.program.operations, Settled g directionOf final.table o := by
    intro o ho
    obtain ⟨i, hi⟩ := List.getElem?_of_mem ho
    exact (hend i o hi).resolve_left List.not_mem_nil
  refine ⟨hsettled, fun r' => drain_eq_self hsettled (fun i => List.mem_range.1) ?_⟩
  exact length_queue_le hs

/-- Two operations in a row, with both ends sharded by the user, at different levels. -/
def relay : Program where
  meshes := [("mesh", .grid 2 2 Nat.two_pos Nat.two_pos)]
  values := [⟨[6], some (.ofDims "mesh" [⟨[.full "x"], false, some 0⟩]), none⟩,
    ⟨[6], none, some 0⟩,
    ⟨[6], some (.ofDims "mesh" [⟨[.full "y"], false, some 1⟩]), some 1⟩]
  operations := [⟨"negate", [0], [1], [], some (Rule.identity [6] 1 1)⟩,
    ⟨"negate", [1], [2], [], some (Rule.identity [6] 1 1)⟩]
  arguments := [0]
  outputs := [2]
  groups := []

theorem linked_relay : relay.Linked := by
  refine ⟨fun i o hi v hv => ?_, by decide⟩
  rcases i with _ | _ | i
  · cases hi
    cases List.mem_singleton.1 hv
    rfl
  · cases hi
    cases List.mem_singleton.1 hv
    rfl
  · cases hi

/-- The sharding of the last value reaches the first one, whose operation waits a second
time. -/
theorem settled_of_run_relay :
    let g : Propagator := ⟨relay, .default, Policy.largest⟩
    let sharded : TableEntry := ⟨1, some (.ofDims "mesh" [.ofAxes [.full "x"] false])⟩
    let final : State := ⟨[], [sharded, sharded, sharded], ⟨false, false, 2, .empty⟩, true⟩
    relay.Linked ∧
      g.run (fun _ => .both) [⟨1, none⟩, ⟨1, none⟩, sharded] (.start false false) = .ok final ∧
      (∀ o ∈ relay.operations, Settled g (fun _ => .both) final.table o) ∧
      ∀ r, g.run (fun _ => .both) final.table r = .ok ⟨[], final.table, r, false⟩ := by
  intro g sharded final
  have hrun : g.run (fun _ => .both) [⟨1, none⟩, ⟨1, none⟩, sharded] (.start false false)
      = .ok final := eq_ok_of_toOption (by decide +kernel)
  exact ⟨linked_relay, hrun, settled_of_run linked_relay hrun⟩

end run

end Propagator
end MeshSharding
