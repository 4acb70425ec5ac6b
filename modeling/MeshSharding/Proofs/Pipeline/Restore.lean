import MeshSharding.Proofs.Pipeline.Reexpectation
import MeshSharding.Proofs.Pipeline.Reimport

/-! What export finishes, import restores. Export drops rules and closes shardings; import gives the
rules back, so that it leads to the resharded program over closed shardings, and export finishes
this as it did before. -/
namespace MeshSharding

open Program

namespace Program

variable {p q : Program}

theorem producerIn_map {f : Operation → Operation} (hf : ∀ o, (f o).results = o.results)
    (operations : List Operation) (v : Nat) :
    producerIn (operations.map f) v = producerIn operations v := by
  rw [producerIn, producerIn, List.zipIdx_map, List.filter_map, List.getLast?_map, Option.map_map]
  have hsame : (fun x : Operation × Nat => x.1.results.contains v) ∘ Prod.map f id
      = fun x => x.1.results.contains v := funext fun x => by simp [hf]
  rw [hsame]
  rfl

/-- The operations of a program are those its values know. -/
theorem withOperations_eq_self_iff : p.withOperations p.operations = p ↔
    ∀ i v, p.values[i]? = some v → v.producer = producerIn p.operations i := by
  have hvalues : p.withOperations p.operations = p ↔
      (p.values.mapIdx fun id v => { v with producer := producerIn p.operations id })
        = p.values := by
    constructor
    · exact congrArg Program.values
    · intro h
      rw [withOperations, h]
  rw [hvalues]
  constructor
  · intro h i v hv
    have hget := congrArg (·[i]?) h
    simp only [List.getElem?_mapIdx, hv, Option.map_some, Option.some.injEq] at hget
    exact (congrArg Value.producer hget).symm
  · intro h
    refine List.ext_getElem? fun i => ?_
    rw [List.getElem?_mapIdx]
    cases hv : p.values[i]? with
    | none => rfl
    | some v =>
      rw [Option.map_some, ← h i v hv]

end Program

namespace Export

variable {options : Options} {p q : Program} {o : Operation}

section finish

/-- What export leaves of an operation. -/
def dropRule (options : Options) (o : Operation) : Operation :=
  if options.keepRules then o else { o with rule := o.rule.filter (·.custom) }

/-- Operations get back the rules that export has dropped, but collectives do not. -/
def restoreRule (options : Options) (o : Operation) : Operation :=
  if Collective.isOperation o.name then dropRule options o else o

def closeValues (options : Options) (p : Program) : Program :=
  if options.closesShardings then closeShardings p else p

/-- What export makes of the resharded program. -/
def finish (options : Options) (p : Program) : Program :=
  closeValues options { p with operations := p.operations.map (dropRule options) }

/-- What import makes of it again. -/
def restore (options : Options) (p : Program) : Program :=
  closeValues options { p with operations := p.operations.map (restoreRule options) }

theorem dropRule_restoreRule (options : Options) (o : Operation) :
    dropRule options (restoreRule options o) = dropRule options o := by
  unfold restoreRule
  split
  · unfold dropRule
    split
    · rfl
    · simp only [Option.filter_filter, Bool.and_self]
  · rfl

theorem closeShardings_closeShardings (p : Program) :
    closeShardings (closeShardings p) = closeShardings p := by
  simp [closeShardings, Function.comp_def, Option.map_map]

theorem finish_restore (options : Options) (p : Program) :
    finish options (restore options p) = finish options p := by
  have hoperations : (p.operations.map (restoreRule options)).map (dropRule options)
      = p.operations.map (dropRule options) := by
    rw [List.map_map]
    exact List.map_congr_left fun o _ => dropRule_restoreRule options o
  unfold finish restore closeValues
  split
  · have hself := closeShardings_closeShardings
      { p with operations := p.operations.map (dropRule options) }
    rw [← hself, ← hoperations]
    rfl
  · rw [← hoperations]

theorem exportProgram_eq_ok {reshards : List InsertedReshard}
    (h : exportProgram options p = .ok (q, reshards)) :
    ∃ s, insertReshards options (withoutGroups p) = .ok (s, reshards) ∧ q = finish options s := by
  obtain ⟨⟨s, reshards⟩, hs, h⟩ := bind_eq_ok_iff.1 h
  cases h
  refine ⟨s, hs, ?_⟩
  unfold finish closeValues dropRule
  cases options.keepRules with
  | true =>
    have hself : s.operations.map (fun o => o) = s.operations := List.map_id' s.operations
    simp only [if_true, hself]
  | false => rfl

theorem exportProgram_eq_finish (h : insertReshards options (withoutGroups p) = .ok (p, [])) :
    exportProgram options p = .ok (finish options p, []) := by
  obtain ⟨⟨q, reshards⟩, hq⟩ : ∃ x, exportProgram options p = .ok x :=
    ⟨_, bind_eq_ok_iff.2 ⟨_, h, rfl⟩⟩
  obtain ⟨s, hs, rfl⟩ := exportProgram_eq_ok hq
  cases h.symm.trans hs
  exact hq

section closeValues

theorem closeValues_operations (options : Options) (p : Program) :
    (closeValues options p).operations = p.operations := by
  unfold closeValues
  split <;> rfl

theorem closeValues_groups (options : Options) (p : Program) :
    (closeValues options p).groups = p.groups := by
  unfold closeValues
  split <;> rfl

theorem closeValues_mesh (options : Options) (p : Program) :
    (closeValues options p).mesh = p.mesh := by
  unfold closeValues
  split <;> rfl

/-- Closing changes no more than shardings. -/
theorem getElem?_closeValues (options : Options) (p : Program) (v : Nat) :
    (closeValues options p).values[v]? = (p.values[v]?).map fun x =>
      { x with sharding := if options.closesShardings then x.sharding.map TensorSharding.closedLike
          else x.sharding } := by
  unfold closeValues
  split
  · exact List.getElem?_map
  · rw [Option.map_id']

@[simp] theorem shapeOf_closeValues (options : Options) (p : Program) (v : Nat) :
    (closeValues options p).shapeOf v = p.shapeOf v := by
  rw [shapeOf, getElem?_closeValues, Option.map_map]
  rfl

theorem sharding?_closeValues (options : Options) (p : Program) (v : Nat) :
    (closeValues options p).sharding? v
      = if options.closesShardings then (p.sharding? v).map TensorSharding.closedLike
        else p.sharding? v := by
  rw [sharding?, getElem?_closeValues, sharding?]
  cases p.values[v]? with
  | none => split <;> rfl
  | some x => rfl

theorem fits_closeValues (options : Options) (h : p.Fits) : (closeValues options p).Fits := by
  intro v hv s hs
  obtain ⟨i, hi⟩ := List.getElem?_of_mem hv
  rw [getElem?_closeValues] at hi
  obtain ⟨x, hx, rfl⟩ := Option.map_eq_some_iff.1 hi
  have hfits := h x (List.mem_of_getElem? hx)
  dsimp only at hs ⊢
  rw [closeValues_mesh]
  split at hs
  · obtain ⟨old, hold, rfl⟩ := Option.map_eq_some_iff.1 hs
    obtain ⟨m, hm, hrank, hvalid, hunranked⟩ := hfits old hold
    refine ⟨m, hm, (TensorSharding.closedLike_rank old).trans hrank, ?_,
      hunranked.mapDims fun _ => rfl⟩
    rwa [TensorSharding.Valid, TensorSharding.closedLike_usedAxes]
  · exact hfits s hs

end closeValues

section restore

theorem restore_operations (options : Options) (p : Program) :
    (restore options p).operations = p.operations.map (restoreRule options) :=
  closeValues_operations ..

theorem results_restoreRule (options : Options) (o : Operation) :
    (restoreRule options o).results = o.results := by
  unfold restoreRule dropRule
  split
  · split <;> rfl
  · rfl

theorem name_restoreRule (options : Options) (o : Operation) :
    (restoreRule options o).name = o.name := by
  unfold restoreRule dropRule
  split
  · split <;> rfl
  · rfl

/-- An operation that has its rule back is as it was. -/
theorem restoreRule_eq_self {r : Rule} (h : (restoreRule options o).rule = some r) :
    restoreRule options o = o := by
  unfold restoreRule dropRule at h ⊢
  split
  · rename_i hname
    rw [if_pos hname] at h
    split
    · rfl
    · rename_i hkeep
      rw [if_neg hkeep] at h
      obtain ⟨hr, hcustom⟩ := Option.filter_eq_some_iff.1 h
      dsimp only at h
      rw [h, ← hr]
  · rfl

theorem produced_restore (options : Options) (h : p.withOperations p.operations = p) :
    (restore options p).withOperations (restore options p).operations = restore options p := by
  rw [withOperations_eq_self_iff] at h ⊢
  intro i v hv
  rw [restore_operations, producerIn_map (results_restoreRule options)]
  rw [restore, getElem?_closeValues] at hv
  obtain ⟨x, hx, rfl⟩ := Option.map_eq_some_iff.1 hv
  exact h i x hx

theorem withoutGroups_eq_self (h : p.withOperations p.operations = p)
    (hnames : ∀ o ∈ p.operations, o.name ≠ Catalogue.groupOperation) : withoutGroups p = p := by
  have hfilter : p.operations.filter (fun o => o.name ≠ Catalogue.groupOperation)
      = p.operations := List.filter_eq_self.2 fun o ho => decide_eq_true (hnames o ho)
  rw [withoutGroups, hfilter, h]

/-- The rule of the operation comes back when export has dropped it. -/
def RuleReturns (options : Options) (c : Catalogue) (p : Program) (o : Operation) : Prop :=
  Collective.isOperation o.name = true ∨ ∃ r, o.rule = some r ∧
    r.verify (p.signatureOf o) = .ok () ∧ (options.keepRules = true ∨ r.custom = true ∨
      c.ruleFor o.name o.attributes (p.signatureOf o) = .ok r)

/-- Import gives an operation its rule back. -/
theorem ruled_dropRule {c : Catalogue} (h : RuleReturns options c p o) :
    Import.ruled c p (dropRule options o) = .ok (restoreRule options o) := by
  have hname : (dropRule options o).name = o.name := by
    unfold dropRule
    split <;> rfl
  have hsignature : p.signatureOf (dropRule options o) = p.signatureOf o := by
    unfold dropRule
    split <;> rfl
  rw [Import.ruled, hname, hsignature, restoreRule]
  rcases h with hcollective | ⟨r, hr, hverify, hreturns⟩
  · rw [if_pos hcollective, if_pos hcollective]
  · split
    · rfl
    · by_cases hstays : options.keepRules = true ∨ r.custom = true
      · have hself : dropRule options o = o := by
          unfold dropRule
          split
          · rfl
          · rename_i hkeep
            rw [hr, Option.filter_some, if_pos (hstays.resolve_left hkeep), ← hr]
        rw [hself, hr]
        simp only [hverify, bind, Except.bind]
        rfl
      · rw [not_or] at hstays
        have hnone : dropRule options o = { o with rule := none } := by
          rw [dropRule, if_neg hstays.1, hr, Option.filter_some, if_neg hstays.2]
        have hback := (hreturns.resolve_left hstays.1).resolve_left hstays.2
        rw [hnone]
        simp only [hback, bind, Except.bind]
        rw [← hr]
        rfl

/-- Import restores the program that export has finished. -/
theorem importProgram_finish {c : Catalogue} (hfits : p.Fits) (hgroups : p.groups = [])
    (hrules : ∀ o ∈ p.operations, RuleReturns options c p o) :
    Import.importProgram c (finish options p) = .ok (restore options p) := by
  have hfits' : (finish options p).Fits := fits_closeValues options
    (p := { p with operations := p.operations.map (dropRule options) }) hfits
  have hsignature : ∀ o, (finish options p).signatureOf o = p.signatureOf o := fun o =>
    signatureOf_congr (fun v _ => shapeOf_closeValues ..) fun v _ => shapeOf_closeValues ..
  have hruled : ∀ o ∈ p.operations, Import.ruled c (finish options p) (dropRule options o)
      = .ok (restoreRule options o) := fun o ho => by
    refine Eq.trans ?_ (ruled_dropRule (hrules o ho))
    simp only [Import.ruled, hsignature]
  have himport := Import.importProgram_eq_ok (fits_iff.1 hfits').1
    ((closeValues_groups ..).trans hgroups) (closeValues_operations ..) hruled
  rw [himport]
  unfold finish restore closeValues
  split <;> rfl

end restore

end finish

end Export
end MeshSharding
