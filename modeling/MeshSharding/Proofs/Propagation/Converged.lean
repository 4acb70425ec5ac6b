import MeshSharding.Proofs.Propagation.UserAxes

/-! Converged programs. Propagation ends in a program that has the shardings of its table as they
are, and there every operation is settled in the directions of the last pass. A program whose
operations are settled in the directions of every pass comes out of propagation as it was. -/
namespace MeshSharding

open ShardingTable

namespace Program

variable {p : Program}

/-- The shardings of the values, as a table. -/
def table (p : Program) : ShardingTable := p.values.map fun v => ⟨v.rank, v.sharding⟩

theorem getElem?_table (p : Program) (v : Nat) :
    p.table[v]? = (p.values[v]?).map fun v => ⟨v.rank, v.sharding⟩ := List.getElem?_map

@[simp] theorem get_table (p : Program) (v : Nat) : p.table.get v = p.sharding? v := by
  rw [ShardingTable.get, getElem?_table, Option.bind_map]
  rfl

theorem sound_table (h : ∀ v ∈ p.values, Import.checkValue p v = .ok ()) : p.table.Sound p := by
  refine ⟨by simp [table, Function.comp_def], fun v s hs => ?_⟩
  rw [get_table] at hs
  obtain ⟨x, hx, hs⟩ := Option.bind_eq_some_iff.1 hs
  obtain ⟨m, hm, hvalid⟩ := Import.checkValue_eq_ok_iff.1 (h x (List.mem_of_getElem? hx)) s hs
  exact ⟨m, hm, by simpa [shapeOf, hx] using hvalid⟩

end Program

namespace Propagator

variable {g : Propagator} {heuristics : List Heuristic} {t t' : ShardingTable} {r r' : Recorder}

/-- The directions of the passes, in order. -/
def directions (options : Options) (heuristics : List Heuristic) : List (Operation → Direction) :=
  if !options.byHeuristics || heuristics.isEmpty then [fun _ => .both]
  else (List.range heuristics.length).map (Heuristic.direction heuristics)

/-- The directions of the last pass. -/
def lastDirection (options : Options) (heuristics : List Heuristic) : Operation → Direction :=
  if !options.byHeuristics || heuristics.isEmpty then fun _ => .both
  else Heuristic.direction heuristics (heuristics.length - 1)

theorem settled_of_passesFrom (hg : g.program.Linked) {passes : List Nat} {last : Nat}
    (h : g.passesFrom heuristics (passes ++ [last]) t r = .ok (t', r')) :
    ∀ o ∈ g.program.operations, Settled g (Heuristic.direction heuristics last) t' o := by
  induction passes generalizing t r with
  | nil =>
    obtain ⟨s, hs, h⟩ := bind_eq_ok_iff.1 h
    cases h
    exact (settled_of_run hg hs).1
  | cons pass rest ih =>
    obtain ⟨s, -, h⟩ := bind_eq_ok_iff.1 h
    exact ih h

theorem settled_of_runPasses (hg : g.program.Linked)
    (h : g.runPasses heuristics t r = .ok (t', r')) :
    ∀ o ∈ g.program.operations, Settled g (lastDirection g.options heuristics) t' o := by
  unfold runPasses at h
  unfold lastDirection
  split at h
  · rename_i hsingle
    obtain ⟨s, hs, h⟩ := bind_eq_ok_iff.1 h
    cases h
    rw [if_pos hsingle]
    exact (settled_of_run hg hs).1
  · rename_i hpasses
    obtain ⟨n, hn⟩ : ∃ n, heuristics.length = n + 1 := by
      refine Nat.exists_eq_succ_of_ne_zero fun hzero => hpasses ?_
      rw [List.length_eq_zero_iff.1 hzero]
      simp
    rw [if_neg hpasses, hn, Nat.add_sub_cancel]
    rw [hn, List.range_succ] at h
    exact settled_of_passesFrom hg h

theorem run_eq_self {directionOf : Operation → Direction}
    (h : ∀ o ∈ g.program.operations, Settled g directionOf t o)
    (hn : g.program.operations.length ≤ wordBound) (r : Recorder) :
    g.run directionOf t r = .ok ⟨[], t, r, false⟩ :=
  drain_eq_self h (fun _ => List.mem_range.1) (by rwa [List.length_range])

/-- Where all operations are settled in the directions of every pass, no pass changes anything. -/
theorem runPasses_eq_self
    (h : ∀ d ∈ directions g.options heuristics, ∀ o ∈ g.program.operations, Settled g d t o)
    (hn : g.program.operations.length ≤ wordBound) (r : Recorder) :
    g.runPasses heuristics t r = .ok (t, r) := by
  unfold directions at h
  unfold runPasses
  split at h
  · rename_i hsingle
    rw [if_pos hsingle, run_eq_self (h _ List.mem_cons_self) hn]
    rfl
  · rename_i hpasses
    rw [if_neg hpasses]
    rw [List.forall_mem_map] at h
    generalize List.range heuristics.length = passes at h ⊢
    induction passes with
    | nil => rfl
    | cons pass rest ih =>
      rw [List.forall_mem_cons] at h
      rw [passesFrom, run_eq_self h.1 hn]
      exact ih h.2

end Propagator

namespace ShardingTable

def Unranked (t : ShardingTable) : Prop := ∀ v s, t.get v = some s → s.Unranked

variable {t t' : ShardingTable} {m : Mesh}

theorem Unranked.put (h : t.Unranked) {s : TensorSharding} (hs : s.Unranked) (value : Nat) :
    (t.put value (some s)).Unranked := by
  intro other s' hs'
  rw [get_put] at hs'
  split at hs'
  · cases hs'
    exact hs
  · exact h other s' hs'

theorem Unranked.refine (h : t.Unranked) {value dim : Nat} {axes : List AxisRef} {name : String}
    (hrefine : t.refine value dim axes name m = some t') : t'.Unranked := by
  obtain ⟨entry, s, hentry, -, hs, rfl⟩ := refine_eq_some_iff.1 hrefine
  obtain ⟨_, _, -, -, -, -, -, rfl⟩ := TensorSharding.refineDim_eq_some hs
  have hcurrent : (entry.sharding.getD (.fullyOpen name entry.rank)).Unranked := by
    cases hsharding : entry.sharding with
    | none => exact TensorSharding.unranked_fullyOpen name entry.rank
    | some s => exact h value s (by simp [ShardingTable.get, hentry, hsharding])
  exact h.put (hcurrent.modifyDim (by simp)) value

end ShardingTable

namespace Propagator

theorem keeps_unranked (g : Propagator) : g.Keeps ShardingTable.Unranked := by
  intro directionOf operation s s' hs h
  obtain ⟨o, decision, -, -, rfl⟩ := process_eq_ok_iff.1 h
  clear h
  cases decision with
  | none => exact hs
  | some d =>
    rw [applyAll]
    generalize d.updates = updates
    induction updates generalizing s with
    | nil => exact hs
    | cons u rest ih =>
      rw [List.foldl_cons]
      refine ih _ ?_
      rcases applyUpdate_cases g operation d s u with ⟨-, heq⟩ | ⟨t, hrefine, htable, -, -⟩
      · rw [heq]
        exact hs
      · rw [htable]
        exact hs.refine hrefine

end Propagator

namespace Admission

open TensorSharding

variable {g : Propagator} {m : Mesh} {p q : Program} {t t' : ShardingTable} {r r' : Recorder}
  {level : Option Nat} {value dim : Nat} {user current : TensorSharding} {u d e : DimSharding}
  {heuristics : List Heuristic} {provenance : Provenance}

section unranked

theorem Reconciles.priority_eq (h : Reconciles m u d e) : e.priority = d.priority := by
  cases h <;> rfl

theorem unranked_admitDims (h : current.Unranked) (users : List DimSharding) (dim : Nat)
    (r : Recorder) : (admitDims m level value dim users current r).1.Unranked := by
  induction users generalizing dim current r with
  | nil => exact h
  | cons u rest ih =>
    refine ih ?_ (dim + 1) _
    cases hd : current.dims[dim]? with
    | none =>
      rw [admitDim_of_none hd]
      exact h
    | some d =>
      rcases admitDim_cases m level value r u hd with heq | ⟨f, hf, heq⟩
      · rw [heq]
        exact h
      · rw [heq]
        refine h.modifyDim fun d' hd' => ?_
        cases hd.symm.trans hd'
        exact hf.priority_eq

/-- The priorities of the user have no part in what is admitted. -/
theorem unranked_admitSharding (h : ∀ s ∈ t.get value, s.Unranked) (r : Recorder) :
    (admitSharding m level value user (t.get value) r).1.Unranked := by
  unfold admitSharding
  split
  · refine unranked_admitDims (fun d hd => ?_) user.dims 0 r
    obtain ⟨_, -, rfl⟩ := List.mem_map.1 hd
    rfl
  · rename_i s hs
    split
    · exact unranked_admitDims (h s hs) user.dims 0 r
    · exact h s hs

theorem unranked_admitValues {shardings : List (Option TensorSharding)} (ht : t.Unranked)
    (h : admitValues p level value shardings t r = .ok (t', r')) : t'.Unranked := by
  induction shardings generalizing value t r with
  | nil => cases h; exact ht
  | cons first rest ih =>
    cases first with
    | none => exact ih ht h
    | some user =>
      obtain ⟨m, -, h⟩ := bind_eq_ok_iff.1 h
      obtain ⟨t₁, ht₁, h⟩ := bind_eq_ok_iff.1 h
      refine ih ?_ h
      unfold ShardingTable.set at ht₁
      split at ht₁
      · cases ht₁
        exact ht.put (unranked_admitSharding (ht value) r) value
      · cases ht₁

end unranked

section store

theorem get_ofRanks (ranks : List Nat) (v : Nat) : (ofRanks ranks).get v = none := by
  simp only [ShardingTable.get, ofRanks, List.getElem?_map]
  cases ranks[v]? <;> rfl

/-- A table that has a sharding for each value that the user has sharded is the table of the
program it is stored in. -/
theorem table_store (ht : t.Sound p) (hunranked : t.Unranked)
    (hkept : ∀ v, t.get v = none → p.sharding? v = none) : (store p t).table = t := by
  refine List.ext_getElem? fun v => ?_
  rw [Program.getElem?_table, store, List.getElem?_mapIdx, Option.map_map]
  cases hentry : t[v]? with
  | none =>
    rw [List.getElem?_eq_none_iff, ht.length_eq, ← List.getElem?_eq_none_iff] at hentry
    rw [hentry]
    rfl
  | some entry =>
    obtain ⟨x, hx⟩ : ∃ x, p.values[v]? = some x := by
      have hlt := (List.getElem?_eq_some_iff.1 hentry).1
      rw [ht.length_eq] at hlt
      exact ⟨_, List.getElem?_eq_getElem hlt⟩
    have hrank : entry.rank = x.rank := by
      rw [ht.rank_eq hentry, Program.shapeOf, hx]
      rfl
    have hget : t.get v = entry.sharding := by rw [ShardingTable.get, hentry]; rfl
    obtain ⟨rank, sharding⟩ := entry
    dsimp only at hrank hget
    rw [hx, Option.map_some, Function.comp_apply, hget, hrank]
    cases sharding with
    | none =>
      have hnone := hkept v hget
      rw [Program.sharding?, hx] at hnone
      rw [show x.sharding = none from hnone]
    | some s =>
      dsimp only
      rw [(hunranked v s hget).withoutPriorities_eq]
      rfl

/-- A program without priorities is what is stored of its own table. -/
theorem store_table (h : ∀ v s, p.sharding? v = some s → s.Unranked) : store p p.table = p := by
  have hvalues : (store p p.table).values = p.values := by
    rw [store]
    refine List.ext_getElem? fun v => ?_
    rw [List.getElem?_mapIdx]
    cases hv : p.values[v]? with
    | none => rfl
    | some x =>
      have hsharding : p.sharding? v = x.sharding := by rw [Program.sharding?, hv]; rfl
      rw [Option.map_some, Program.get_table, hsharding]
      cases hx : x.sharding with
      | none => rfl
      | some s =>
        dsimp only
        rw [(h v s (hsharding.trans hx)).withoutPriorities_eq, ← hx]
  change { p with values := (store p p.table).values } = p
  rw [hvalues]

end store

section propagated

theorem settled_of_runLevels (hg : g.program.Linked) {levels : List (Option Nat)}
    (hlevels : levels ≠ []) (h : runLevels g heuristics levels t r = .ok (t', r')) :
    ∀ o ∈ g.program.operations,
      Propagator.Settled g (Propagator.lastDirection g.options heuristics) t' o := by
  induction levels generalizing t r with
  | nil => exact absurd rfl hlevels
  | cons level rest ih =>
    obtain ⟨_, -, h⟩ := bind_eq_ok_iff.1 h
    obtain ⟨⟨t₂, r₂⟩, hpasses, h⟩ := bind_eq_ok_iff.1 h
    cases rest with
    | nil =>
      cases h
      exact Propagator.settled_of_runPasses hg hpasses
    | cons level' rest => exact ih (by simp) h

theorem levels_ne_nil (p : Program) : levels p ≠ [] := by
  obtain ⟨level, rest, h, -⟩ := exists_levels_eq_cons p
  simp [h]

/-- Propagation ends in the program in which the table behind the last level is stored. -/
theorem exists_runLevels_of_propagate (hrules : g.program.RulesVerify)
    (hvalues : ∀ v ∈ g.program.values, Import.checkValue g.program v = .ok ())
    (h : propagate g heuristics = .ok (q, provenance)) :
    ∃ r, runLevels g heuristics (levels g.program) (ofRanks (g.program.values.map Value.rank))
        (.start g.options.recordsOrigins g.options.recordsEdges) = .ok (q.table, r) ∧
      q = store g.program q.table ∧ q.table.Sound g.program ∧ q.table.Unranked ∧
      provenance = r.record := by
  obtain ⟨⟨t, r⟩, hlevels, h⟩ := bind_eq_ok_iff.1 h
  cases h
  have hrun := hlevels
  have hsound := sound_runLevels hrules hvalues (sound_ofRanks _) hlevels
  have hunranked : t.Unranked := by
    refine runLevels_induction (Propagator.keeps_unranked g)
      (fun _ _ _ _ _ ht hadmit => unranked_admitValues ht hadmit) (fun v s hs => ?_) hlevels
    rw [get_ofRanks] at hs
    cases hs
  have hkept : Kept g.program (fun _ => False) t := by
    obtain ⟨level, rest, hfirst, -⟩ := exists_levels_eq_cons g.program
    rw [hfirst] at hlevels
    obtain ⟨⟨t₁, r₁⟩, hadmit, hlevels⟩ := bind_eq_ok_iff.1 hlevels
    obtain ⟨⟨t₂, r₂⟩, hpasses, hlevels⟩ := bind_eq_ok_iff.1 hlevels
    refine runLevels_induction (keeps_kept g _)
      (fun level t r t' r' ht hadmit => ht.admitValues hadmit) ?_ hlevels
    exact (keeps_kept g _).runPasses
      (kept_admitValues hvalues (by simp) (get_ofRanks _) hadmit) hpasses
  have htable : (store g.program t).table = t := by
    refine table_store hsound hunranked fun v hv => ?_
    cases hs : g.program.sharding? v with
    | none => rfl
    | some user =>
      obtain ⟨_, s, -, hs', -⟩ := hkept v user hs
      rw [hv] at hs'
      cases hs'
  rw [htable]
  exact ⟨r, hrun, rfl, hsound, hunranked, rfl⟩

/-- Behind propagation the shardings of the program are those of the table, and every operation is
settled there in the directions of the last pass. -/
theorem settled_of_propagate (hlinked : g.program.Linked) (hrules : g.program.RulesVerify)
    (hvalues : ∀ v ∈ g.program.values, Import.checkValue g.program v = .ok ())
    (h : propagate g heuristics = .ok (q, provenance)) :
    q = store g.program q.table ∧ q.table.Sound g.program ∧ q.table.Unranked ∧
      ∀ o ∈ g.program.operations,
        Propagator.Settled g (Propagator.lastDirection g.options heuristics) q.table o := by
  obtain ⟨r, hlevels, hstore, hsound, hunranked, -⟩ :=
    exists_runLevels_of_propagate hrules hvalues h
  exact ⟨hstore, hsound, hunranked, settled_of_runLevels hlinked (levels_ne_nil _) hlevels⟩

end propagated

section again

/-- Without priorities a valid sharding of the user is admitted as it is. -/
theorem admitSharding_eq_user (hvalid : user.Valid m) (hunranked : user.Unranked) (value : Nat)
    (r : Recorder) : (admitSharding m none value user none r).1 = user := by
  obtain ⟨dims, hdims, hlength⟩ := admitDims_eq m none value 0 user.dims (unadmitted user) r
  have heq : (admitSharding m none value user none r).1
      = { unadmitted user with dims := dims } := hdims
  suffices dims = user.dims by rw [heq, this]; rfl
  refine List.ext_getElem? fun i => ?_
  cases hu : user.dims[i]? with
  | none =>
    rw [List.getElem?_eq_none_iff] at hu ⊢
    rw [hlength]
    exact (List.length_map ..).trans_le hu
  | some u =>
    have hempty : (unadmitted user).dims[0 + i]? = some (.ofAxes [] false) := by
      rw [Nat.zero_add, unadmitted, List.getElem?_map, hu]
      rfl
    have hvisible : isHidden none u = false := by
      unfold isHidden
      cases u.priority <;> rfl
    have htaken : (admitDims m none value 0 user.dims (unadmitted user) r).1.dims[0 + i]?
        = some ⟨u.axes, u.closed, none⟩ :=
      dims_admitDims_taken hvalid (part_unadmitted user) (fun i u hu => by rwa [Nat.zero_add])
        hu hempty rfl hvisible
    rw [Nat.zero_add, hdims] at htaken
    rw [show dims[i]? = _ from htaken]
    have hpriority := hunranked u (List.mem_of_getElem? hu)
    obtain ⟨axes, closed, priority⟩ := u
    cases hpriority
    rfl

/-- A single level admits all the shardings as they are. -/
theorem exists_admitValues (hvalues : ∀ v s, p.sharding? v = some s →
      ∃ m, p.mesh s.meshName = .ok m ∧ s.Valid m ∧ s.Unranked)
    {values done : List Value} (hsplit : p.values = done ++ values) (r : Recorder) :
    ∃ r', admitValues p none done.length (values.map (·.sharding))
        (done.map (fun v => ⟨v.rank, v.sharding⟩) ++ values.map fun v => ⟨v.rank, none⟩) r
      = .ok (p.table, r') := by
  induction values generalizing done r with
  | nil =>
    refine ⟨r, ?_⟩
    simp [Program.table, hsplit, admitValues]
  | cons v rest ih =>
    have hnext : p.values = (done ++ [v]) ++ rest := by simp [hsplit]
    have hlength : (done ++ [v]).length = done.length + 1 := by simp
    cases hv : v.sharding with
    | none =>
      obtain ⟨r', hr'⟩ := ih hnext r
      refine ⟨r', ?_⟩
      rw [List.map_cons, hv, admitValues, ← hlength, ← hr']
      simp [hv]
    | some s =>
      have hs : p.sharding? done.length = some s := by simp [Program.sharding?, hsplit, hv]
      obtain ⟨m, hm, hvalid, hunranked⟩ := hvalues _ s hs
      have hempty : ShardingTable.get (done.map (fun v => ⟨v.rank, v.sharding⟩)
          ++ (v :: rest).map fun v => ⟨v.rank, none⟩) done.length = none := by
        simp [ShardingTable.get]
      obtain ⟨r', hr'⟩ := ih hnext
        (admitSharding m none done.length s none r).2
      refine ⟨r', ?_⟩
      rw [List.map_cons, hv, admitValues, hm, hempty]
      simp only [bind, Except.bind, admitSharding_eq_user hvalid hunranked]
      rw [ShardingTable.set, if_pos (by simp)]
      dsimp only
      rw [← hlength, ← hr']
      congr 1
      simp [ShardingTable.put, List.modify_eq_set_getElem?, hv]

theorem priorities_eq_nil (h : ∀ v s, p.sharding? v = some s → s.Unranked) :
    priorities p = [] := by
  refine List.eq_nil_iff_forall_not_mem.2 fun x hx => ?_
  rw [priorities, Sorted.mem_ofList, List.mem_flatMap] at hx
  obtain ⟨s, hs, hx⟩ := hx
  obtain ⟨_, hmem, rfl⟩ := List.mem_filterMap.1 hs
  obtain ⟨d, hd, hpriority⟩ := List.mem_filterMap.1 hx
  obtain ⟨v, hv⟩ := List.getElem?_of_mem hmem
  rw [h v s (userShardings_eq_some_iff.1 hv) d hd] at hpriority
  cases hpriority

theorem levels_eq_of_unranked (h : ∀ v s, p.sharding? v = some s → s.Unranked) :
    levels p = [none] := by
  rw [levels, priorities_eq_nil h]
  rfl

/-- The one level of a program without priorities begins with the shardings of the user. -/
theorem exists_admitValues_table (hvalues : ∀ v ∈ p.values, Import.checkValue p v = .ok ())
    (hunranked : ∀ v s, p.sharding? v = some s → s.Unranked) (r : Recorder) :
    ∃ r', admitValues p none 0 (userShardings p) (ofRanks (p.values.map Value.rank)) r
      = .ok (p.table, r') := by
  have hvalid : ∀ v s, p.sharding? v = some s →
      ∃ m, p.mesh s.meshName = .ok m ∧ s.Valid m ∧ s.Unranked := fun v s hs => by
    obtain ⟨m, hm, hvalid⟩ :=
      (Program.sound_table hvalues).valid v s ((Program.get_table ..).trans hs)
    exact ⟨m, hm, (TensorSharding.validate_eq_ok_iff.1 hvalid).2, hunranked v s hs⟩
  obtain ⟨r', hr'⟩ := exists_admitValues hvalid (List.nil_append p.values).symm r
  refine ⟨r', ?_⟩
  rw [← hr', ofRanks, List.map_map]
  rfl

/-- A program comes out of propagation as it was if its shardings are valid and have no
priorities, and all its operations are settled in the directions of every pass. -/
theorem propagate_eq_self (hvalues : ∀ v ∈ g.program.values, Import.checkValue g.program v = .ok ())
    (hunranked : g.program.table.Unranked)
    (hn : g.program.operations.length ≤ wordBound)
    (h : ∀ d ∈ Propagator.directions g.options heuristics, ∀ o ∈ g.program.operations,
      Propagator.Settled g d g.program.table o) :
    ∃ provenance, propagate g heuristics = .ok (g.program, provenance) := by
  have hsharding : ∀ v s, g.program.sharding? v = some s → s.Unranked := fun v s hs =>
    hunranked v s ((Program.get_table ..).trans hs)
  obtain ⟨r', hadmit⟩ := exists_admitValues_table hvalues hsharding
    (.start g.options.recordsOrigins g.options.recordsEdges)
  refine ⟨r'.record, ?_⟩
  unfold propagate
  rw [levels_eq_of_unranked hsharding]
  simp only [runLevels, hadmit, Propagator.runPasses_eq_self h hn, bind, Except.bind, pure,
    Except.pure, store_table hsharding]

end again
end Admission
end MeshSharding
