import Mathlib.Data.List.Perm.Basic
import MeshSharding.Proofs.Pipeline.Insertion
import MeshSharding.Proofs.Program.Coherent
import MeshSharding.Proofs.Program.Users

/-! Programs that are reached by calls and stages. Export takes operations away and sets others in
between, so that the numbers of operations change, but each stage leaves values and operations
coherent. -/
namespace MeshSharding

open Program

variable {p q : Program}

namespace Import

variable {c : Catalogue}

theorem coherent_addGroupOperation {group : List Nat} (h : p.Coherent)
    (hadd : addGroupOperation p group = .ok q) : q.Coherent := by
  cases group with
  | nil =>
    cases hadd
    exact h
  | cons first rest =>
    obtain ⟨_, _, hadd⟩ := bind_eq_ok_iff.1 hadd
    obtain ⟨_, _, hadd⟩ := bind_eq_ok_iff.1 hadd
    obtain ⟨_, _, hadd⟩ := bind_eq_ok_iff.1 hadd
    obtain ⟨⟨p', results⟩, hoperation, hadd⟩ := bind_eq_ok_iff.1 hadd
    obtain rfl := setRule_eq hadd
    have h := h.addOperation hoperation
    exact h.congr rfl (putRule_operations ..) h.arguments_lt h.outputs_lt h.groups_lt

theorem coherent_foldlM {groups : List (List Nat)} (h : p.Coherent)
    (hadd : groups.foldlM addGroupOperation p = .ok q) : q.Coherent :=
  foldlM_keeps hadd h fun _ _ _ _ hp hgroup => coherent_addGroupOperation hp hgroup

theorem coherent_importProgram (h : p.Coherent) (himport : importProgram c p = .ok q) :
    q.Coherent := by
  obtain ⟨operations, p', -, hruled, hgroups, rfl⟩ := steps_of_importProgram himport
  have hp : ({ p with operations := operations } : Program).Coherent :=
    h.congr rfl (withoutRule_of_mapM_ruled hruled) h.arguments_lt h.outputs_lt h.groups_lt
  have hp' := coherent_foldlM hp hgroups
  exact hp'.congr rfl rfl hp'.arguments_lt hp'.outputs_lt nofun

end Import

namespace Admission

theorem coherent_store (h : p.Coherent) (t : ShardingTable) : (store p t).Coherent := by
  refine h.congr (List.ext_getElem (by simp) fun v _ _ => ?_) rfl h.arguments_lt h.outputs_lt
    h.groups_lt
  simp only [store, List.getElem_map, List.getElem_mapIdx]
  split <;> rfl

end Admission

namespace Export

section fresh

/-- The results of a chain are the values that it adds, in their order. -/
theorem results_chain {m : Mesh} {shape : Shape} {expected s : TensorSharding} {value last : Nat}
    {cs : List Collective} {operations : List Operation}
    (h : chain m shape expected p value s cs = .ok (q, operations, last)) :
    q.values.length = p.values.length + operations.length ∧
      operations.flatMap (·.results) = List.range' p.values.length operations.length := by
  induction cs generalizing p value s operations with
  | nil =>
    cases h
    exact ⟨rfl, rfl⟩
  | cons c rest ih =>
    rw [chain] at h
    obtain ⟨applied, _, h⟩ := bind_eq_ok_iff.1 h
    obtain ⟨⟨q', operations', last'⟩, hchain, h⟩ := bind_eq_ok_iff.1 h
    cases h
    obtain ⟨hlength, hresults⟩ := ih hchain
    rw [List.length_append, List.length_singleton] at hlength hresults
    rw [List.flatMap_cons, hresults, List.length_cons, List.range'_succ]
    exact ⟨by omega, rfl⟩

/-- The results of the chains of an insertion. -/
def created (i : Insertion) : List Nat := i.operations.flatMap (·.results)

theorem created_insertions {mismatches : List Mismatch} {all : List Insertion}
    (h : insertions p mismatches = .ok (q, all)) :
    ∃ n, q.values.length = p.values.length + n ∧
      all.flatMap created = List.range' p.values.length n := by
  induction mismatches generalizing p all with
  | nil =>
    cases h
    exact ⟨0, rfl, rfl⟩
  | cons x rest ih =>
    obtain ⟨h, -⟩ | ⟨o, source, s, m, cs, shape, p', operations, value, more, -, -, -, -, -, -, -,
      hchain, hmore, rfl⟩ := insertions_cons_eq_ok h
    · exact ih h
    · obtain ⟨hlength, hresults⟩ := results_chain hchain
      obtain ⟨n, hmore, hcreated⟩ := ih hmore
      refine ⟨operations.length + n, by omega, ?_⟩
      rw [List.flatMap_cons, hcreated, created, hresults, hlength, List.range'_append_1]

end fresh

section splice

variable {all : List Insertion}

/-- What is inserted from an operation on stands in front of it or behind it. -/
theorem created_perm (all : List Insertion) (k : Nat) :
    ((all.filter fun i => i.operation = k).flatMap created ++
      (all.filter fun i => k + 1 ≤ i.operation).flatMap created).Perm
        ((all.filter fun i => k ≤ i.operation).flatMap created) := by
  have hhere : (all.filter fun i => k ≤ i.operation).filter (fun i => i.operation = k)
      = all.filter fun i => i.operation = k := by
    rw [List.filter_filter]
    exact List.filter_congr fun i _ => by grind
  have hlater : (all.filter fun i => k ≤ i.operation).filter (fun i => !decide (i.operation = k))
      = all.filter fun i => k + 1 ≤ i.operation := by
    rw [List.filter_filter]
    exact List.filter_congr fun i _ => by grind
  have h := List.filter_append_perm (fun i => decide (i.operation = k))
    (all.filter fun i => k ≤ i.operation)
  rw [hhere, hlater] at h
  rw [← List.flatMap_append]
  exact h.flatMap_right created

/-- The results behind splicing are among those that were there and those that are created. -/
theorem results_splice_subperm (all : List Insertion) (rest : List Operation) (start k : Nat) :
    ((splice all start k rest).1.flatMap (·.results)).Subperm
      ((all.filter fun i => k ≤ i.operation).flatMap created ++ rest.flatMap (·.results)) := by
  induction rest generalizing start k with
  | nil => exact List.nil_subperm
  | cons o rest ih =>
    let here := all.filter fun i => i.operation = k
    let later := (all.filter fun i => k + 1 ≤ i.operation).flatMap created
    have hbefore : (here.flatMap (·.operations)).flatMap (·.results) = here.flatMap created :=
      List.flatMap_assoc
    have hmore := ih (start + (here.flatMap (·.operations)).length + 1) (k + 1)
    -- the chains of later operations are counted in front of this operation's results
    have hswap : (here.flatMap created ++ (o.results ++ (later ++ rest.flatMap (·.results)))).Perm
        ((all.filter fun i => k ≤ i.operation).flatMap created
          ++ (o.results ++ rest.flatMap (·.results))) := by
      refine ((List.perm_append_comm_assoc ..).append_left _).trans ?_
      rw [← List.append_assoc]
      exact (created_perm all k).append_right _
    rw [splice, List.flatMap_append, hbefore, List.flatMap_cons, setOperand_results,
      List.flatMap_cons]
    exact ((List.subperm_append_left _).2 ((List.subperm_append_left _).2 hmore)).trans
      hswap.subperm

theorem nodup_results_splice (h : p.Coherent) {n : Nat}
    (hcreated : all.flatMap created = List.range' p.values.length n) :
    ((splice all 0 0 p.operations).1.flatMap (·.results)).Nodup := by
  obtain ⟨results, hperm, hsublist⟩ := results_splice_subperm all p.operations 0 0
  have hall : (all.filter fun i => 0 ≤ i.operation) = all :=
    List.filter_eq_self.2 fun i _ => by simp
  rw [hall, hcreated] at hsublist
  refine hperm.nodup_iff.1 (List.Nodup.sublist hsublist (List.nodup_append.2
    ⟨List.nodup_range', h.nodup_results, fun v hv w hw => ?_⟩))
  obtain ⟨o, ho, hw⟩ := List.mem_flatMap.1 hw
  exact Nat.ne_of_gt (Nat.lt_of_lt_of_le (h.results_lt o ho w hw) (List.mem_range'_1.1 hv).1)

end splice

section stage

variable {options : Options} {reshards : List InsertedReshard}

theorem coherent_withoutGroups (h : p.Coherent) : (withoutGroups p).Coherent := by
  have hsublist : (p.operations.filter fun o => o.name ≠ Catalogue.groupOperation).Sublist
      p.operations := List.filter_sublist
  have hout := h.withOperations [] (p.operations.filter fun o =>
    o.name ≠ Catalogue.groupOperation) (by simpa using fun o ho _ => h.operands_lt o ho)
    (by simpa using fun o ho _ => h.results_lt o ho)
    (h.nodup_results.sublist (hsublist.flatMap _))
  rwa [List.append_nil] at hout

/-- What is mentioned in a chain is below the bound. -/
theorem Sound.lt {n bound : Nat} {root : Nat → Nat} {operations : List Operation} {i : Insertion}
    (h : Sound n bound root operations i) {o : Operation} (ho : o ∈ i.operations) :
    (∀ v ∈ o.operands, v < bound) ∧ ∀ v ∈ o.results, v < bound := by
  obtain ⟨c, a, b, -, hcopy⟩ := h.copies o ho
  rw [hcopy.operands, hcopy.results, List.forall_mem_singleton, List.forall_mem_singleton]
  exact ⟨Nat.lt_trans hcopy.older hcopy.lt, hcopy.lt⟩

theorem Sound.value_lt {n bound : Nat} {root : Nat → Nat} {operations : List Operation}
    {i : Insertion} (h : Sound n bound root operations i)
    (hlt : ∀ o ∈ operations, ∀ v ∈ o.operands, v < bound) : i.value < bound := by
  rcases List.mem_cons.1 h.reaches with heq | hmem
  · obtain ⟨o, ho, hsource⟩ := h.source
    exact heq ▸ hlt o (List.mem_of_getElem? ho) _ (List.mem_of_getElem? hsource)
  · obtain ⟨o, ho, hresult⟩ := List.mem_flatMap.1 hmem
    exact (h.lt ho).2 _ hresult

theorem coherent_spliced (h : p.Coherent) {mismatches : List Mismatch} {all : List Insertion}
    (hall : insertions p mismatches = .ok (q, all)) :
    (q.withOperations (splice all 0 0 q.operations).1).Coherent := by
  obtain ⟨n, -, hcreated⟩ := created_insertions hall
  obtain ⟨_, extra, rfl, -, hsound⟩ := insertions_spec hall (Nat.le_refl _) h.operands_lt id
  have hle : p.values.length ≤ (p.values ++ extra).length := by simp
  have hoperands : ∀ o ∈ p.operations, ∀ v ∈ o.operands, v < (p.values ++ extra).length :=
    fun o ho v hv => Nat.lt_of_lt_of_le (h.operands_lt o ho v hv) hle
  refine h.withOperations extra (splice all 0 0 p.operations).1 (fun x hx v hv => ?_)
    (fun x hx v hv => ?_) (nodup_results_splice h hcreated)
  · rcases mem_splice hx with ⟨i, hi, hxi⟩ | ⟨k, o, ho, rfl⟩
    · exact ((hsound i hi).lt hxi).1 v hv
    · rcases mem_operands_foldl_setOperand hv with hv | ⟨i, hi, rfl⟩
      · exact hoperands o (List.mem_of_getElem? ho) v hv
      · exact (hsound i (List.mem_filter.1 hi).1).value_lt hoperands
  · rcases mem_splice hx with ⟨i, hi, hxi⟩ | ⟨k, o, ho, rfl⟩
    · exact ((hsound i hi).lt hxi).2 v hv
    · rw [setOperand_results] at hv
      exact Nat.lt_of_lt_of_le (h.results_lt o (List.mem_of_getElem? ho) v hv) hle

theorem coherent_insertReshards (h : p.Coherent)
    (hinsert : insertReshards options p = .ok (q, reshards)) : q.Coherent := by
  obtain ⟨mismatches, _, hinsert⟩ := bind_eq_ok_iff.1 hinsert
  split at hinsert
  · cases hinsert
    exact h
  · obtain ⟨⟨p', all⟩, hall, hinsert⟩ := bind_eq_ok_iff.1 hinsert
    cases hinsert
    exact coherent_spliced h hall

theorem coherent_dropRules (h : p.Coherent) : (dropRules p).Coherent := by
  refine h.congr rfl ?_ h.arguments_lt h.outputs_lt h.groups_lt
  rw [dropRules, List.map_map]
  rfl

theorem coherent_closeShardings (h : p.Coherent) : (closeShardings p).Coherent := by
  refine h.congr ?_ rfl h.arguments_lt h.outputs_lt h.groups_lt
  rw [closeShardings, List.map_map]
  rfl

theorem coherent_exportProgram (h : p.Coherent)
    (hexport : exportProgram options p = .ok (q, reshards)) : q.Coherent :=
  exportProgram_keeps hexport (fun _ => coherent_insertReshards (coherent_withoutGroups h))
    (fun _ => coherent_dropRules) fun _ => coherent_closeShardings

end stage

end Export

namespace Program

/-- What calls, failing or not, and stages that succeed lead to from the empty program. -/
inductive Reached : Program → Prop
  | empty : Reached .empty
  | call {p : Program} (c : Call) : Reached p → Reached (c.run p).2
  | importStage {p q : Program} (l : Pipeline) :
      Reached p → l.importStage p = .ok q → Reached q
  | propagateStage {p q : Program} {provenance : Provenance} (l : Pipeline) :
      Reached p → l.propagateStage p = .ok (q, provenance) → Reached q
  | exportStage {p q : Program} {reshards : List InsertedReshard} (l : Pipeline) :
      Reached p → l.exportStage p = .ok (q, reshards) → Reached q

theorem Reached.calls (h : p.Reached) (cs : List Call) :
    (cs.foldl (fun p c => (c.run p).2) p).Reached := by
  induction cs generalizing p with
  | nil => exact h
  | cons c rest ih => exact ih (h.call c)

theorem Reached.coherent (h : p.Reached) : p.Coherent := by
  induction h with
  | empty => exact coherent_empty
  | call c _ ih => exact ih.run c
  | importStage l _ himport ih => exact Import.coherent_importProgram ih himport
  | propagateStage l _ hpropagate ih =>
    obtain ⟨t, rfl⟩ := Admission.propagate_eq hpropagate
    exact Admission.coherent_store ih t
  | exportStage l _ hexport ih => exact Export.coherent_exportProgram ih hexport

/-- A program that is reached is coherent, the users of all its values are listed, and a call
that fails leaves a program as it was. -/
theorem coherent_of_reached (p : Program) :
    (p.Reached → p.Coherent ∧ ∃ users, p.collectUsers = .ok users ∧ p.ListsUsers users) ∧
      ∀ (c : Call) (e : Error), (c.run p).1 = .error e → (c.run p).2 = p := by
  refine ⟨fun h => ⟨h.coherent, p.users, ?_, p.listsUsers⟩, fun c e he => Call.run_of_error he⟩
  exact collectUsers_eq h.coherent.operands_lt

/-- A negation of values that are cut along different axes, one of them in a group. Two of the calls
fail. -/
def groupedNegation : Program :=
  [.addMesh "mesh" (.grid 2 2 Nat.two_pos Nat.two_pos),
    .addArgument [6] (some (.ofDims "mesh" [.ofAxes [.full "x"] true])),
    .addOperation "negate" [0, 7] [[6]] [],
    .addOperation "negate" [0] [[6]] [],
    .setSharding 1 (some (.ofDims "mesh" [.ofAxes [.full "y"] true])),
    .setRule 1 none,
    .setRule 0 (some (Rule.identity [6] 1 1)),
    .addGroup [1],
    .setOutputs [1]].foldl (fun p (c : Call) => (c.run p).2) .empty

theorem coherent_of_reached_groupedNegation :
    ∃ imported propagated exported provenance reshards,
      (Pipeline.ofOptions .default).importStage groupedNegation = .ok imported ∧
      (Pipeline.ofOptions .default).propagateStage imported = .ok (propagated, provenance) ∧
      (Pipeline.ofOptions .default).exportStage propagated = .ok (exported, reshards) ∧
      exported.values.map (·.producer) = [none, some 1, none, some 0] ∧
      exported.Coherent ∧
      (∃ users, exported.collectUsers = .ok users ∧ exported.ListsUsers users) ∧
      ((Call.setOutputs [5]).run groupedNegation).2 = groupedNegation := by
  have h : (do
      let imported ← (Pipeline.ofOptions .default).importStage groupedNegation
      let propagated ← (Pipeline.ofOptions .default).propagateStage imported
      let exported ← (Pipeline.ofOptions .default).exportStage propagated.1
      return exported.1.values.map (·.producer)) = Except.ok [none, some 1, none, some 0] :=
    eq_ok_of_toOption (by decide +kernel)
  obtain ⟨imported, himport, h⟩ := bind_eq_ok_iff.1 h
  obtain ⟨⟨propagated, provenance⟩, hpropagate, h⟩ := bind_eq_ok_iff.1 h
  obtain ⟨⟨exported, reshards⟩, hexport, h⟩ := bind_eq_ok_iff.1 h
  have hreached : exported.Reached :=
    (((Reached.empty.calls _).importStage _ himport).propagateStage _ hpropagate).exportStage _
      hexport
  obtain ⟨hcoherent, husers⟩ := (coherent_of_reached exported).1 hreached
  exact ⟨imported, propagated, exported, provenance, reshards, himport, hpropagate, hexport,
    Except.ok.inj h, hcoherent, husers,
    (coherent_of_reached groupedNegation).2 (.setOutputs [5]) (.unknownValue 5) rfl⟩

end Program

end MeshSharding
