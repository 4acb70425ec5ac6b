import MeshSharding.Propagation.Worklist
import MeshSharding.Proofs.Program.Linked
import MeshSharding.Proofs.Propagation.Table

/-! One step of the worklist. An operation reads and refines only its own operands and
results, and when a value is refined the operations that touch it join the queue. -/
namespace MeshSharding

open Program

namespace Operation

/-- The operands and the results. -/
def touched (o : Operation) : List Nat := o.operands ++ o.results

theorem mem_touched_of_valueAt {o : Operation} {t : TensorRef} {v : Nat}
    (h : o.valueAt t = .ok v) : v ∈ o.touched := by
  unfold valueAt at h
  split at h
  · rename_i hv
    cases h
    have hmem := List.mem_of_getElem? hv
    cases hside : t.side with
    | operand => exact List.mem_append_left _ (by simpa [hside, values] using hmem)
    | result => exact List.mem_append_right _ (by simpa [hside, values] using hmem)
  · cases h

end Operation

namespace Propagator

variable {g : Propagator} {directionOf : Operation → Direction}

section decide

variable {o : Operation} {r : Rule} {d : Direction} {t t' : ShardingTable} {m : Mesh}
  {p : Projection}

/-- An operation reads only the shardings of its operands and results. -/
theorem decide_congr (h : ∀ v ∈ o.touched, t'.get v = t.get v) :
    g.decide o r d t' = g.decide o r d t := by
  have hoperands : o.operands.map t'.get = o.operands.map t.get :=
    List.map_congr_left fun v hv => h v (List.mem_append_left _ hv)
  have hresults : o.results.map t'.get = o.results.map t.get :=
    List.map_congr_left fun v hv => h v (List.mem_append_right _ hv)
  simp only [decide, hoperands, hresults]

/-- The mapping of the target, and the dimension that has the factor. -/
def placeOf (r : Rule) (u : FactorUpdate) : Option (Mapping × Nat) :=
  (r.mapping? u.target).bind fun mapping =>
    (mapping.positionOf u.factor).map fun place => (mapping, place.1)

section updates

variable {u : FactorUpdate} {rest changed : List FactorUpdate} {seen : List (TensorRef × Nat)}
  {updates : List ShardingUpdate} {mapping : Mapping} {dim : Nat}

/-- No dimension has the factor, or it already has its update. -/
def Drops (r : Rule) (seen : List (TensorRef × Nat)) (u : FactorUpdate) : Prop :=
  ∀ mapping dim, placeOf r u = some (mapping, dim) → (u.target, dim) ∈ seen

theorem updatesOf_cons_of_drops (h : Drops r seen u) :
    updatesOf m o r p seen (u :: rest) = updatesOf m o r p seen rest := by
  rw [updatesOf]
  split
  · rfl
  · rename_i mapping dim hplace
    rw [if_pos (h mapping dim hplace)]

theorem updatesOf_cons_of_place (hplace : placeOf r u = some (mapping, dim))
    (hseen : (u.target, dim) ∉ seen) : updatesOf m o r p seen (u :: rest) = (do
      let value ← o.valueAt u.target
      let source ← o.valueAt u.source
      let more ← updatesOf m o r p ((u.target, dim) :: seen) rest
      return ⟨value, dim, ((p.tensor? u.target).map fun t => t.dimAxes m mapping dim).getD [],
        source⟩ :: more) := by
  rw [placeOf] at hplace
  rw [updatesOf, hplace]
  dsimp only
  rw [if_neg hseen]

theorem updatesOf_cons_eq_ok (h : updatesOf m o r p seen (u :: rest) = .ok updates) :
    (Drops r seen u ∧ updatesOf m o r p seen rest = .ok updates) ∨
    ∃ mapping dim value source more, placeOf r u = some (mapping, dim) ∧
      (u.target, dim) ∉ seen ∧ o.valueAt u.target = .ok value ∧ o.valueAt u.source = .ok source ∧
      updatesOf m o r p ((u.target, dim) :: seen) rest = .ok more ∧
      updates = ⟨value, dim,
        ((p.tensor? u.target).map fun t => t.dimAxes m mapping dim).getD [], source⟩ :: more := by
  by_cases hdrops : Drops r seen u
  · rw [updatesOf_cons_of_drops hdrops] at h
    exact .inl ⟨hdrops, h⟩
  · simp only [Drops, not_forall] at hdrops
    obtain ⟨mapping, dim, hplace, hseen⟩ := hdrops
    rw [updatesOf_cons_of_place hplace hseen] at h
    obtain ⟨value, hvalue, h⟩ := bind_eq_ok_iff.1 h
    obtain ⟨source, hsource, h⟩ := bind_eq_ok_iff.1 h
    obtain ⟨more, hmore, h⟩ := bind_eq_ok_iff.1 h
    cases h
    exact .inr ⟨mapping, dim, value, source, more, hplace, hseen, hvalue, hsource, hmore, rfl⟩

/-- Each update is for the dimension of a factor that has changed, from where that one has. -/
theorem exists_of_mem_updatesOf (h : updatesOf m o r p seen changed = .ok updates)
    {w : ShardingUpdate} (hw : w ∈ updates) :
    ∃ u ∈ changed, ∃ mapping, placeOf r u = some (mapping, w.dim) ∧
      o.valueAt u.target = .ok w.value ∧ o.valueAt u.source = .ok w.source ∧
      w.axes = ((p.tensor? u.target).map fun t => t.dimAxes m mapping w.dim).getD [] := by
  induction changed generalizing seen updates with
  | nil =>
    cases h
    cases hw
  | cons c rest ih =>
    obtain ⟨-, h⟩ | ⟨mapping, _, _, _, more, hplace, -, hvalue, hsource, hmore, rfl⟩ :=
      updatesOf_cons_eq_ok h
    · obtain ⟨u, hu, hall⟩ := ih h hw
      exact ⟨u, List.mem_cons_of_mem _ hu, hall⟩
    · rcases List.mem_cons.1 hw with rfl | hw
      · exact ⟨c, List.mem_cons_self, mapping, hplace, hvalue, hsource, rfl⟩
      · obtain ⟨u, hu, hall⟩ := ih hmore hw
        exact ⟨u, List.mem_cons_of_mem _ hu, hall⟩

theorem mem_touched_of_updatesOf (h : updatesOf m o r p seen changed = .ok updates) :
    ∀ u ∈ updates, u.value ∈ o.touched := by
  intro u hu
  obtain ⟨_, -, _, -, hvalue, -⟩ := exists_of_mem_updatesOf h hu
  exact Operation.mem_touched_of_valueAt hvalue

end updates

theorem decide_eq_some {decision : Decision} (h : g.decide o r d t = .ok (some decision)) :
    ∃ p q changed, g.program.mesh decision.meshName = .ok decision.mesh ∧
      commonMesh (o.operands.map t.get ++ o.results.map t.get) = some decision.meshName ∧
      Projection.ofShardings decision.mesh r (o.operands.map t.get) (o.results.map t.get)
        = .ok p ∧
      (g.factorStep decision.mesh).propagate r d p = .ok (q, changed) ∧
      updatesOf decision.mesh o r q [] changed = .ok decision.updates := by
  unfold decide at h
  dsimp only at h
  split at h
  · cases h
  · rename_i name hname
    obtain ⟨m, hm, h⟩ := bind_eq_ok_iff.1 h
    obtain ⟨p, hp, h⟩ := bind_eq_ok_iff.1 h
    obtain ⟨⟨q, changed⟩, hq, h⟩ := bind_eq_ok_iff.1 h
    obtain ⟨updates, hupdates, h⟩ := bind_eq_ok_iff.1 h
    cases h
    exact ⟨p, q, changed, hm, hname, hp, hq, hupdates⟩

/-- An operation refines only its operands and results. -/
theorem mem_touched_of_decide {decision : Decision}
    (h : g.decide o r d t = .ok (some decision)) : ∀ u ∈ decision.updates, u.value ∈ o.touched := by
  obtain ⟨_, _, _, -, -, -, -, hupdates⟩ := decide_eq_some h
  exact mem_touched_of_updatesOf hupdates

end decide

section queue

theorem subset_enqueue (queue : List Nat) (i : Nat) : queue <+: enqueue queue i := by
  unfold enqueue
  split
  · exact List.prefix_refl _
  · exact List.prefix_append ..

theorem mem_enqueue (queue : List Nat) (i : Nat) : i ∈ enqueue queue i := by
  unfold enqueue
  split <;> simp [*]

theorem prefix_foldl_enqueue (queue joining : List Nat) :
    queue <+: joining.foldl enqueue queue := by
  induction joining generalizing queue with
  | nil => exact List.prefix_refl _
  | cons i rest ih => exact (subset_enqueue queue i).trans (ih _)

theorem subset_foldl_enqueue (queue joining : List Nat) :
    joining ⊆ joining.foldl enqueue queue := by
  induction joining generalizing queue with
  | nil => exact List.nil_subset _
  | cons i rest ih =>
    exact List.cons_subset.2
      ⟨(prefix_foldl_enqueue _ rest).subset (mem_enqueue queue i), ih _⟩

/-- The operations that touch a value are its neighbours. -/
theorem mem_neighbours {p : Program} (hp : p.Linked) {i v : Nat} {o : Operation}
    (ho : p.operations[i]? = some o) (hv : v ∈ o.touched) : i ∈ neighbours p v := by
  rcases List.mem_append.1 hv with hv | hv
  · exact List.mem_append_right _ (mem_usersOf.2 ⟨o, ho, hv⟩)
  · exact List.mem_append_left _ (by simp [hp.producer_eq i o ho v hv])

end queue

section process

variable {operation : Nat} {decision : Decision} {s s' : State}

/-- The updates of an operation, none if it has no rule or no direction. -/
def ask (g : Propagator) (directionOf : Operation → Direction) (t : ShardingTable)
    (o : Operation) : Except Error (Option Decision) :=
  match o.rule, directionOf o with
  | none, _ => .ok none
  | _, .none => .ok none
  | some rule, direction => g.decide o rule direction t

/-- Applies the updates of a decision in order. -/
def applyAll (g : Propagator) (operation : Nat) (s : State) : Option Decision → State
  | none => s
  | some d => d.updates.foldl (g.applyUpdate operation d) s

theorem process_eq (g : Propagator) (directionOf : Operation → Direction) (s : State)
    (operation : Nat) : g.process directionOf s operation = do
      let o ← g.program.operation operation
      let decision ← g.ask directionOf s.table o
      return g.applyAll operation s decision := by
  unfold process ask applyAll
  congr 1
  funext o
  cases o.rule with
  | none => rfl
  | some rule =>
    cases directionOf o with
    | none => rfl
    | _ =>
      dsimp only
      congr 1
      funext decision
      cases decision <;> rfl

theorem process_eq_ok_iff : g.process directionOf s operation = .ok s' ↔
    ∃ o decision, g.program.operations[operation]? = some o ∧
      g.ask directionOf s.table o = .ok decision ∧ s' = g.applyAll operation s decision := by
  simp only [process_eq, bind_eq_ok_iff, operation_eq_ok_iff, pure, Except.pure,
    Except.ok.injEq, eq_comm (a := s')]
  grind

theorem ask_congr {o : Operation} {t t' : ShardingTable}
    (h : ∀ v ∈ o.touched, t'.get v = t.get v) :
    g.ask directionOf t' o = g.ask directionOf t o := by
  unfold ask
  split
  · rfl
  · rfl
  · exact decide_congr h

theorem ask_eq_some {o : Operation} {t : ShardingTable} {d : Decision}
    (h : g.ask directionOf t o = .ok (some d)) :
    ∃ rule, o.rule = some rule ∧ g.decide o rule (directionOf o) t = .ok (some d) := by
  unfold ask at h
  split at h
  · cases h
  · cases h
  · exact ⟨_, ‹_›, h⟩

/-- What an update that is accepted changes. -/
theorem applyUpdate_eq {d : Decision} {u : ShardingUpdate} {t : ShardingTable}
    (h : s.table.refine u.value u.dim u.axes d.meshName d.mesh = some t) :
    g.applyUpdate operation d s u =
      { queue := (neighbours g.program u.value).foldl enqueue s.queue
        table := t
        recorder := s.recorder.refine d.mesh operation u.source u.value u.dim
          (axesOf s.table u.value u.dim) u.axes
        changed := true } := by
  unfold applyUpdate
  rw [h]

theorem applyUpdate_cases (g : Propagator) (operation : Nat) (d : Decision) (s : State)
    (u : ShardingUpdate) :
    (s.table.refine u.value u.dim u.axes d.meshName d.mesh = none ∧
      g.applyUpdate operation d s u = s) ∨
    ∃ t, s.table.refine u.value u.dim u.axes d.meshName d.mesh = some t ∧
      (g.applyUpdate operation d s u).table = t ∧
      (g.applyUpdate operation d s u).queue
        = (neighbours g.program u.value).foldl enqueue s.queue ∧
      (g.applyUpdate operation d s u).recorder.step = s.recorder.step + 1 := by
  cases hrefine : s.table.refine u.value u.dim u.axes d.meshName d.mesh with
  | none => exact .inl ⟨rfl, by unfold applyUpdate; rw [hrefine]⟩
  | some t =>
    rw [applyUpdate_eq hrefine]
    exact .inr ⟨t, rfl, rfl, rfl, Recorder.refine_step ..⟩

theorem prefix_applyUpdate (d : Decision) (s : State) (u : ShardingUpdate) :
    s.queue <+: (g.applyUpdate operation d s u).queue := by
  rcases applyUpdate_cases g operation d s u with ⟨-, h⟩ | ⟨t, -, -, hqueue, -⟩
  · simp [h]
  · rw [hqueue]
    exact prefix_foldl_enqueue ..

theorem prefix_foldl_applyUpdate (d : Decision) (updates : List ShardingUpdate) (s : State) :
    s.queue <+: (updates.foldl (g.applyUpdate operation d) s).queue := by
  induction updates generalizing s with
  | nil => exact List.prefix_refl _
  | cons u rest ih => exact (prefix_applyUpdate d s u).trans (ih _)

theorem prefix_applyAll (g : Propagator) (operation : Nat) (s : State)
    (decision : Option Decision) :
    s.queue <+: (g.applyAll operation s decision).queue := by
  cases decision with
  | none => exact List.prefix_refl _
  | some d => exact prefix_foldl_applyUpdate d d.updates s

/-- Where a value has changed, its neighbours have joined the queue. -/
theorem getElem?_foldl_applyUpdate (d : Decision) (updates : List ShardingUpdate) (s : State)
    (v : Nat) :
    (updates.foldl (g.applyUpdate operation d) s).table[v]? = s.table[v]? ∨
      neighbours g.program v ⊆ (updates.foldl (g.applyUpdate operation d) s).queue := by
  induction updates generalizing s with
  | nil => exact .inl rfl
  | cons u rest ih =>
    rw [List.foldl_cons]
    rcases applyUpdate_cases g operation d s u with ⟨-, h⟩ | ⟨t, hrefine, htable, hqueue, -⟩
    · rw [h]
      exact ih s
    · by_cases hv : v = u.value
      · refine .inr fun i hi => (prefix_foldl_applyUpdate d rest _).subset ?_
        rw [hqueue]
        exact subset_foldl_enqueue _ _ (hv ▸ hi)
      · refine (ih _).imp_left fun hlast => ?_
        rw [hlast, htable, ShardingTable.getElem?_of_refine hrefine hv]

theorem getElem?_applyAll (s : State) (decision : Option Decision) (v : Nat) :
    (g.applyAll operation s decision).table[v]? = s.table[v]? ∨
      neighbours g.program v ⊆ (g.applyAll operation s decision).queue := by
  cases decision with
  | none => exact .inl rfl
  | some d => exact getElem?_foldl_applyUpdate d d.updates s v

theorem foldl_applyUpdate_eq {d : Decision} {updates : List ShardingUpdate} {s : State}
    (h : ∀ u ∈ updates, s.table.refine u.value u.dim u.axes d.meshName d.mesh = none) :
    updates.foldl (g.applyUpdate operation d) s = s := by
  induction updates with
  | nil => rfl
  | cons u rest ih =>
    have hfirst : g.applyUpdate operation d s u = s := by
      simp only [applyUpdate, h u List.mem_cons_self]
    rw [List.foldl_cons, hfirst]
    exact ih fun u hu => h u (List.mem_cons_of_mem _ hu)

/-- Either all updates are refused, or the neighbours of some updated value have joined. -/
theorem refused_or_queued (g : Propagator) (operation : Nat) (d : Decision)
    (updates : List ShardingUpdate) (s : State) :
    (∀ u ∈ updates, s.table.refine u.value u.dim u.axes d.meshName d.mesh = none) ∨
      ∃ u ∈ updates, neighbours g.program u.value
        ⊆ (updates.foldl (g.applyUpdate operation d) s).queue := by
  induction updates generalizing s with
  | nil => exact .inl nofun
  | cons u rest ih =>
    rw [List.foldl_cons]
    rcases applyUpdate_cases g operation d s u with ⟨hnone, h⟩ | ⟨t, -, -, hqueue, -⟩
    · rw [h]
      rcases ih s with hrest | ⟨u', hmem, hsub⟩
      · exact .inl (List.forall_mem_cons.2 ⟨hnone, hrest⟩)
      · exact .inr ⟨u', List.mem_cons_of_mem _ hmem, hsub⟩
    · refine .inr ⟨u, List.mem_cons_self, fun i hi => ?_⟩
      refine (prefix_foldl_applyUpdate d rest _).subset ?_
      rw [hqueue]
      exact subset_foldl_enqueue _ _ hi

/-- What every step keeps holds at the end, where the queue is empty. -/
theorem drain_induction {P : State → Prop} {steps : Nat} {final : State}
    (hstep : ∀ s operation rest next, s.queue = operation :: rest → P s →
      g.process directionOf { s with queue := rest } operation = .ok next → P next)
    (h : P s) (hs : g.drain directionOf steps s = .ok final) : P final ∧ final.queue = [] := by
  induction steps generalizing s with
  | zero =>
    unfold drain at hs
    split at hs
    · rename_i hqueue
      cases hs
      exact ⟨h, hqueue⟩
    · cases hs
  | succ steps ih =>
    unfold drain at hs
    split at hs
    · rename_i hqueue
      cases hs
      exact ⟨h, hqueue⟩
    · rename_i operation rest hqueue
      obtain ⟨next, hnext, hs⟩ := bind_eq_ok_iff.1 hs
      exact ih (hstep s operation rest next hqueue h hnext) hs

end process

section passes

variable {P : ShardingTable → Prop} {Q : ShardingTable → Recorder → Prop}
  {t t' : ShardingTable} {r r' : Recorder}

/-- Whichever operation is processed, it keeps what is known of the table and of its record. -/
def Maintains (g : Propagator) (Q : ShardingTable → Recorder → Prop) : Prop :=
  ∀ directionOf operation s s', Q s.table s.recorder →
    g.process directionOf s operation = .ok s' → Q s'.table s'.recorder

theorem Maintains.run (h : g.Maintains Q) (ht : Q t r) {s : State}
    (hrun : g.run directionOf t r = .ok s) : Q s.table s.recorder :=
  (drain_induction (P := fun s => Q s.table s.recorder)
    (fun s operation rest _ _ hs hnext => h _ operation { s with queue := rest } _ hs hnext)
    ht hrun).1

theorem Maintains.passesFrom (h : g.Maintains Q) {heuristics : List Heuristic}
    {passes : List Nat} (ht : Q t r)
    (hpasses : g.passesFrom heuristics passes t r = .ok (t', r')) : Q t' r' := by
  induction passes generalizing t r with
  | nil => cases hpasses; exact ht
  | cons pass rest ih =>
    obtain ⟨s, hs, hpasses⟩ := bind_eq_ok_iff.1 hpasses
    exact ih (h.run ht hs) hpasses

theorem Maintains.runPasses (h : g.Maintains Q) {heuristics : List Heuristic}
    (ht : Q t r) (hpasses : g.runPasses heuristics t r = .ok (t', r')) : Q t' r' := by
  unfold Propagator.runPasses at hpasses
  split at hpasses
  · obtain ⟨s, hs, hpasses⟩ := bind_eq_ok_iff.1 hpasses
    cases hpasses
    exact h.run ht hs
  · exact h.passesFrom ht hpasses

/-- Whichever operation is processed, it keeps what is known of the table. -/
def Keeps (g : Propagator) (P : ShardingTable → Prop) : Prop :=
  ∀ directionOf operation s s', P s.table → g.process directionOf s operation = .ok s' →
    P s'.table

theorem Keeps.maintains (h : g.Keeps P) : g.Maintains fun t _ => P t := h

theorem Keeps.run (h : g.Keeps P) (ht : P t) {s : State}
    (hrun : g.run directionOf t r = .ok s) : P s.table := h.maintains.run ht hrun

theorem Keeps.runPasses (h : g.Keeps P) {heuristics : List Heuristic}
    (ht : P t) (hpasses : g.runPasses heuristics t r = .ok (t', r')) : P t' :=
  h.maintains.runPasses ht hpasses

end passes
end Propagator
end MeshSharding
