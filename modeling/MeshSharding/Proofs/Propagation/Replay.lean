import MeshSharding.Proofs.Propagation.Decision
import MeshSharding.Proofs.Propagation.FixedPoint

/-! Steps that are replayed with some of the tensors closed. A closed tensor never changes, and
what an open one takes depends on itself and on the sources of the factor only, so the tensors
that stay open take the same axes again. -/
namespace MeshSharding
namespace FactorStep

variable {s : FactorStep} {r : Rule} {p p' q q' : Projection} {k : Nat} {towards : List AxisRef}
  {source t : TensorRef} {d e : Direction} {us : List FactorUpdate} {A : TensorRef → Bool}

section extension

/-- What a tensor takes depends on no other tensor. -/
theorem extension_congr (h : q.tensor? t = p.tensor? t) :
    s.extension r q k towards t = s.extension r p k towards t := by
  unfold extension
  rw [h]

/-- A closed factor takes nothing. -/
theorem extension_eq_nil (h : ∀ f, q.factor? t k = some f → f.closed = true) :
    s.extension r q k towards t = .ok [] := by
  unfold extension
  cases htensor : q.tensor? t with
  | none => rfl
  | some tensor =>
    dsimp only
    cases hf : tensor.factor? k with
    | none => rfl
    | some f =>
      have hclosed := h f (by rw [Projection.factor?, htensor]; exact hf)
      have hcan : s.canExpand r t tensor k f = false := by
        unfold canExpand
        split
        · rfl
        · simp [hclosed]
      simp [hcan]

variable {ts : List TensorRef}

theorem extendTargets_eq_self (h : ∀ t ∈ ts, s.extension r q k towards t = .ok []) :
    s.extendTargets r k towards source q ts = .ok (q, []) := by
  induction ts with
  | nil => rfl
  | cons t rest ih =>
    rw [List.forall_mem_cons] at h
    rw [extendTargets_cons_of_nil h.1]
    exact ih h.2

theorem propagateFactor_eq_self
    (h : ∀ t ∈ targets q d k, ∀ f, q.factor? t k = some f → f.closed = true) :
    s.propagateFactor r d q k = .ok (q, []) := by
  unfold propagateFactor
  split
  · split
    · rfl
    · exact extendTargets_eq_self fun t ht => extension_eq_nil (h t ht)
  · rfl

end extension

section others

/-- The axes of one factor are all that may differ. -/
structure OnlyAt (k : Nat) (p q : Projection) : Prop where
  refs : q.refs = p.refs
  factor : ∀ t j, j ≠ k → q.factor? t j = p.factor? t j

theorem OnlyAt.refl (k : Nat) (p : Projection) : OnlyAt k p p := ⟨rfl, fun _ _ _ => rfl⟩

theorem OnlyAt.trans (h : OnlyAt k p p') (h' : OnlyAt k p' q) : OnlyAt k p q :=
  ⟨h'.refs.trans h.refs, fun t j hj => (h'.factor t j hj).trans (h.factor t j hj)⟩

theorem onlyAt_setAxes (p : Projection) (t : TensorRef) (k : Nat) (axes : List AxisRef) :
    OnlyAt k p (p.setAxes t k axes) := by
  refine ⟨Projection.refs_setAxes .., fun t' j hj => ?_⟩
  rw [Projection.factor?, Projection.factor?, Projection.tensor?_setAxes]
  split
  · cases p.tensor? t' with
    | none => rfl
    | some tensor => exact (TensorFactors.factor?_setAxes ..).trans (if_neg hj)
  · rfl

theorem onlyAt_extendTargets {ts : List TensorRef}
    (h : s.extendTargets r k towards source p ts = .ok (q, us)) : OnlyAt k p q := by
  induction ts generalizing p us with
  | nil => cases h; exact .refl k _
  | cons t rest ih =>
    obtain ⟨-, h⟩ | ⟨a, more, updates, -, hlast, rfl⟩ := extendTargets_cons_eq_ok h
    · exact ih h
    · exact (onlyAt_setAxes ..).trans (ih hlast)

theorem onlyAt_propagateFactor (h : s.propagateFactor r d p k = .ok (q, us)) : OnlyAt k p q := by
  unfold propagateFactor at h
  split at h
  · split at h
    · cases h; exact .refl k _
    · exact onlyAt_extendTargets h
  · cases h; exact .refl k _

/-- The sources of a factor do not see what other factors do. -/
theorem OnlyAt.sources_eq (h : OnlyAt k p q) (d : Direction) {j : Nat} (hj : j ≠ k) :
    sources q d j = sources p d j := by
  unfold sources
  rw [h.refs]
  refine List.filterMap_congr fun t _ => ?_
  rw [h.factor t j hj]

end others

section replay

/-- The tensors that `A` selects are the same in both projections; of the others, those that could
be targets are closed in the second one. -/
structure Replays (A : TensorRef → Bool) (e : Direction) (p q : Projection) : Prop where
  refs : q.refs = p.refs
  same : ∀ t, A t = true → q.tensor? t = p.tensor? t
  closed : ∀ t, A t = false → isTarget e t = true → ∀ k f, q.factor? t k = some f →
    f.closed = true

theorem Replays.factor?_eq (h : Replays A e p q) (ht : A t = true) (k : Nat) :
    q.factor? t k = p.factor? t k := by
  rw [Projection.factor?, h.same t ht]
  rfl

/-- A selected tensor takes the same axes in both projections. -/
theorem Replays.setAxes (h : Replays A e p q) (ht : A t = true) (k : Nat) (axes : List AxisRef) :
    Replays A e (p.setAxes t k axes) (q.setAxes t k axes) where
  refs := by rw [Projection.refs_setAxes, Projection.refs_setAxes, h.refs]
  same t' ht' := by
    rw [Projection.tensor?_setAxes, Projection.tensor?_setAxes, h.same t' ht']
  closed t' ht' hd k' f hf := by
    have hne : t' ≠ t := by
      rintro rfl
      rw [ht] at ht'
      cases ht'
    rw [Projection.factor?, Projection.tensor?_setAxes, if_neg hne] at hf
    exact h.closed t' ht' hd k' f hf

/-- What the other tensors take is not replayed. -/
theorem Replays.setAxes_left (h : Replays A e p q) (ht : A t = false) (k : Nat)
    (axes : List AxisRef) : Replays A e (p.setAxes t k axes) q where
  refs := by rw [Projection.refs_setAxes, h.refs]
  same t' ht' := by
    have hne : t' ≠ t := by
      rintro rfl
      rw [ht] at ht'
      cases ht'
    rw [Projection.tensor?_setAxes, if_neg hne, h.same t' ht']
  closed := h.closed

/-- A target that is not selected takes nothing in the second projection. -/
theorem Replays.extendTargets_filter_cons (h : Replays A e p q) {Q : TensorRef → Bool}
    (hQ : ∀ t, Q t = true → isTarget e t = true) (ht : A t = false) (ts : List TensorRef) :
    s.extendTargets r k towards source q ((t :: ts).filter Q)
      = s.extendTargets r k towards source q (ts.filter Q) := by
  cases hQt : Q t with
  | false => rw [List.filter_cons_of_neg (by simp [hQt])]
  | true =>
    rw [List.filter_cons_of_pos hQt, extendTargets_cons_of_nil
      (extension_eq_nil fun f => h.closed t ht (hQ t hQt) k f)]

theorem Replays.extendTargets (h : Replays A e p q) {ts : List TensorRef} {P Q : TensorRef → Bool}
    (hA : ∀ t, A t = true → Q t = P t) (hQ : ∀ t, Q t = true → isTarget e t = true)
    (hp : s.extendTargets r k towards source p (ts.filter P) = .ok (p', us)) :
    ∃ q', s.extendTargets r k towards source q (ts.filter Q)
        = .ok (q', us.filter fun u => A u.target) ∧ Replays A e p' q' := by
  induction ts generalizing p q us with
  | nil =>
    cases hp
    exact ⟨q, rfl, h⟩
  | cons t rest ih =>
    cases hAt : A t with
    | true =>
      have hsame := hA t hAt
      cases hPt : P t with
      | false =>
        rw [List.filter_cons_of_neg (by simp [hPt])] at hp
        rw [List.filter_cons_of_neg (by simp [hsame, hPt])]
        exact ih h hp
      | true =>
        rw [List.filter_cons_of_pos hPt] at hp
        rw [List.filter_cons_of_pos (hsame.trans hPt)]
        have hext : s.extension r q k towards t = s.extension r p k towards t :=
          extension_congr (h.same t hAt)
        obtain ⟨hnil, hp⟩ | ⟨a, more, updates, hmore, hlast, rfl⟩ := extendTargets_cons_eq_ok hp
        · rw [extendTargets_cons_of_nil (hext.trans hnil)]
          exact ih h hp
        · have haxes : axesOf q t k = axesOf p t k := by rw [axesOf, h.factor?_eq hAt]; rfl
          obtain ⟨q', hq', hlast'⟩ := ih (h.setAxes hAt k (axesOf p t k ++ a :: more)) hlast
          refine ⟨q', ?_, hlast'⟩
          rw [FactorStep.extendTargets, hext, hmore, List.filter_cons_of_pos (by simpa using hAt)]
          simp only [haxes, hq', bind, Except.bind]
          rfl
    | false =>
      rw [h.extendTargets_filter_cons hQ hAt]
      cases hPt : P t with
      | false =>
        rw [List.filter_cons_of_neg (by simp [hPt])] at hp
        exact ih h hp
      | true =>
        rw [List.filter_cons_of_pos hPt] at hp
        obtain ⟨-, hp⟩ | ⟨a, more, updates, -, hlast, rfl⟩ := extendTargets_cons_eq_ok hp
        · exact ih h hp
        · rw [List.filter_cons_of_neg (by simp [hAt])]
          exact ih (h.setAxes_left hAt k _) hlast

/-- The factor has the same sources in both directions, if a selected tensor has it. -/
def SameSources (A : TensorRef → Bool) (d e : Direction) (p q : Projection) (k : Nat) : Prop :=
  (∃ t, A t = true ∧ (p.factor? t k).isSome) → sources q e k = sources p d k

theorem Replays.propagateFactor (h : Replays A e p q)
    (hA : ∀ t, A t = true → isTarget d t = true ∧ isTarget e t = true)
    (hsources : SameSources A d e p q k)
    (hp : s.propagateFactor r d p k = .ok (p', us)) :
    ∃ q', s.propagateFactor r e q k = .ok (q', us.filter fun u => A u.target) ∧
      Replays A e p' q' := by
  by_cases hhas : ∃ t, A t = true ∧ (p.factor? t k).isSome
  · unfold FactorStep.propagateFactor at hp ⊢
    rw [hsources hhas]
    split at hp
    · rename_i hflows
      rw [if_pos hflows]
      split at hp
      · cases hp
        exact ⟨q, rfl, h⟩
      · unfold targets at hp ⊢
        rw [h.refs]
        refine h.extendTargets (fun t ht => ?_) (fun t ht => ?_) hp
        · rw [h.factor?_eq ht, (hA t ht).1, (hA t ht).2]
        · exact (of_decide_eq_true ht).1
    · rename_i hflows
      rw [if_neg hflows]
      cases hp
      exact ⟨q, rfl, h⟩
  · -- no selected tensor has the factor, so nothing is replayed
    have hnot : ∀ t, A t = true → (p.factor? t k).isSome = false := fun t ht =>
      Bool.eq_false_iff.2 fun hsome => hhas ⟨t, ht, hsome⟩
    have hself : s.propagateFactor r e q k = .ok (q, []) := by
      refine propagateFactor_eq_self fun t ht f hf => ?_
      cases hAt : A t with
      | false => exact h.closed t hAt (of_decide_eq_true (List.mem_filter.1 ht).2).1 k f hf
      | true =>
        have hsome := hnot t hAt
        rw [← h.factor?_eq hAt, hf] at hsome
        cases hsome
    suffices hleft : us.filter (fun u => A u.target) = [] ∧ Replays A e p' q by
      exact ⟨q, by rw [hleft.1, hself], hleft.2⟩
    unfold FactorStep.propagateFactor at hp
    split at hp
    · split at hp
      · cases hp
        exact ⟨rfl, h⟩
      · obtain ⟨q', hq', hlast⟩ := h.extendTargets (Q := fun _ => false)
          (fun t ht => by simp [hnot t ht]) (fun _ hf => by cases hf) hp
        rw [List.filter_false] at hq'
        obtain ⟨rfl, hnil⟩ := Prod.mk.inj (Except.ok.inj hq')
        exact ⟨hnil.symm, hlast⟩
    · cases hp
      exact ⟨rfl, h⟩

theorem Replays.propagateFactors (h : Replays A e p q)
    (hA : ∀ t, A t = true → isTarget d t = true ∧ isTarget e t = true) {ks : List Nat}
    (hks : ks.Nodup) (hsources : ∀ k ∈ ks, SameSources A d e p q k)
    (hp : s.propagateFactors r d p ks = .ok (p', us)) :
    ∃ q', s.propagateFactors r e q ks = .ok (q', us.filter fun u => A u.target) ∧
      Replays A e p' q' := by
  induction ks generalizing p q us with
  | nil =>
    cases hp
    exact ⟨q, rfl, h⟩
  | cons k rest ih =>
    rw [List.nodup_cons] at hks
    rw [List.forall_mem_cons] at hsources
    obtain ⟨⟨next, first⟩, hfirst, hp⟩ := bind_eq_ok_iff.1 hp
    obtain ⟨⟨last, more⟩, hmore, hp⟩ := bind_eq_ok_iff.1 hp
    cases hp
    obtain ⟨q₁, hq₁, hnext⟩ := h.propagateFactor hA hsources.1 hfirst
    have hp₁ := onlyAt_propagateFactor hfirst
    have hq₁' := onlyAt_propagateFactor hq₁
    -- the factors to come do not see what this one has changed
    have hrest : ∀ j ∈ rest, SameSources A d e next q₁ j := by
      intro j hj hhas
      have hne : j ≠ k := fun heq => hks.1 (heq ▸ hj)
      rw [hp₁.sources_eq d hne, hq₁'.sources_eq e hne]
      refine hsources.2 j hj ?_
      obtain ⟨t, ht, hsome⟩ := hhas
      exact ⟨t, ht, hp₁.factor t j hne ▸ hsome⟩
    obtain ⟨q₂, hq₂, hlast⟩ := ih hnext hks.2 hrest hmore
    refine ⟨q₂, ?_, hlast⟩
    simp only [FactorStep.propagateFactors, hq₁, hq₂, bind, Except.bind, List.filter_append]
    rfl

/-- The selected tensors take the same axes again, and nothing else changes. -/
theorem Replays.propagate (h : Replays A e p q)
    (hA : ∀ t, A t = true → isTarget d t = true ∧ isTarget e t = true)
    (hsources : ∀ k, SameSources A d e p q k)
    (hp : s.propagate r d p = .ok (p', us)) :
    ∃ q', s.propagate r e q = .ok (q', us.filter fun u => A u.target) ∧ Replays A e p' q' :=
  h.propagateFactors hA List.nodup_range (fun k _ => hsources k) hp

end replay
end FactorStep

namespace Propagator

open FactorStep

variable {g g' : Propagator} {m : Mesh} {o o' : Operation} {r : Rule} {p q : Projection}
  {A : TensorRef → Bool} {d e : Direction}

/-- Each of the updates in `us'` is one of those in `us`, of a selected tensor, up to its source. -/
def Repeats (A : TensorRef → Bool) (o : Operation) (us us' : List ShardingUpdate) : Prop :=
  ∀ u' ∈ us', ∃ u ∈ us, u.value = u'.value ∧ u.dim = u'.dim ∧ u.axes = u'.axes ∧
    ∃ t, A t = true ∧ o.valueAt t = .ok u.value

theorem Repeats.cons_left {us us' : List ShardingUpdate} (h : Repeats A o us us')
    (u : ShardingUpdate) : Repeats A o (u :: us) us' := fun u' hu' =>
  have ⟨x, hx, hsame⟩ := h u' hu'
  ⟨x, List.mem_cons_of_mem _ hx, hsame⟩

/-- The updates of the selected tensors are asked for again. -/
theorem exists_updatesOf_of_replays (h : Replays A e p q)
    (hvalue : ∀ t, A t = true → o'.valueAt t = o.valueAt t) {us : List FactorUpdate}
    (hsource : ∀ u ∈ us, A u.target = true → ∃ v, o'.valueAt u.source = .ok v)
    {seen : List (TensorRef × Nat)} {updates : List ShardingUpdate}
    (hp : updatesOf m o r p seen us = .ok updates) :
    ∃ updates', updatesOf m o' r q (seen.filter fun x => A x.1)
        (us.filter fun u => A u.target) = .ok updates' ∧ Repeats A o updates updates' := by
  induction us generalizing seen updates with
  | nil => exact ⟨[], rfl, nofun⟩
  | cons u rest ih =>
    rw [List.forall_mem_cons] at hsource
    obtain ⟨hdrops, hp⟩ | ⟨mapping, dim, value, source, more, hplace, hseen, hvalue', -, hmore,
      rfl⟩ := updatesOf_cons_eq_ok hp
    · obtain ⟨updates', hupdates', hall⟩ := ih hsource.2 hp
      refine ⟨updates', ?_, hall⟩
      cases hAu : A u.target with
      | false => rwa [List.filter_cons_of_neg (by simp [hAu])]
      | true =>
        rw [List.filter_cons_of_pos (p := fun u : FactorUpdate => A u.target) hAu,
          updatesOf_cons_of_drops fun mapping dim hplace =>
            List.mem_filter.2 ⟨hdrops mapping dim hplace, hAu⟩, hupdates']
    · obtain ⟨updates', hupdates', hall⟩ := ih hsource.2 hmore
      cases hAu : A u.target with
      | false =>
        rw [List.filter_cons_of_neg (by simp [hAu])] at hupdates' ⊢
        exact ⟨updates', hupdates', hall.cons_left _⟩
      | true =>
        obtain ⟨source', hsource'⟩ := hsource.1 hAu
        rw [List.filter_cons_of_pos (p := fun x : TensorRef × Nat => A x.1) hAu] at hupdates'
        rw [List.filter_cons_of_pos (p := fun u : FactorUpdate => A u.target) hAu,
          updatesOf_cons_of_place hplace fun hmem => hseen (List.mem_filter.1 hmem).1,
          hvalue u.target hAu, hvalue', hsource', h.same u.target hAu]
        simp only [hupdates', bind, Except.bind]
        exact ⟨_, rfl, List.forall_mem_cons.2 ⟨⟨_, List.mem_cons_self, rfl, rfl, rfl,
          u.target, hAu, hvalue'⟩, hall.cons_left _⟩⟩

/-- Whatever the operation asks for is refused. -/
def Refused (g : Propagator) (o : Operation) (r : Rule) (d : Direction) (t : ShardingTable) :
    Prop :=
  ∃ decision, g.decide o r d t = .ok decision ∧
    ∀ x ∈ decision, ∀ u ∈ x.updates, t.refine u.value u.dim u.axes x.meshName x.mesh = none

/-- An operation that is refused all it asks for is refused it again over another table, if its
tensors are replayed and the entries of the selected ones are the same. -/
theorem Refused.replays {t t' : ShardingTable} (h : Refused g o r d t)
    (hmeshes : g'.program.mesh = g.program.mesh) (hstep : g'.factorStep = g.factorStep)
    (ht' : t'.Sound g'.program) (hr : r.verify (g'.program.signatureOf o') = .ok ())
    (hcommon : commonMesh (o'.operands.map t'.get ++ o'.results.map t'.get)
      = commonMesh (o.operands.map t.get ++ o.results.map t.get))
    (hA : ∀ x, A x = true → isTarget d x = true ∧ isTarget e x = true)
    (hvalue : ∀ x, A x = true → o'.valueAt x = o.valueAt x)
    (hentry : ∀ x, A x = true → ∀ v, o.valueAt x = .ok v → t'[v]? = t[v]?)
    (hproject : ∀ name m p q,
      commonMesh (o'.operands.map t'.get ++ o'.results.map t'.get) = some name →
      g'.program.mesh name = .ok m →
      Projection.ofShardings m r (o.operands.map t.get) (o.results.map t.get) = .ok p →
      Projection.ofShardings m r (o'.operands.map t'.get) (o'.results.map t'.get) = .ok q →
      Replays A e p q ∧ ∀ k, SameSources A d e p q k) :
    Refused g' o' r e t' := by
  obtain ⟨decision, hdecide, hrefused⟩ := h
  cases hname : commonMesh (o.operands.map t.get ++ o.results.map t.get) with
  | none =>
    refine ⟨none, ?_, nofun⟩
    simp only [decide, hcommon, hname]
  | some name =>
    have hname' := hcommon.trans hname
    rw [← List.map_append] at hname'
    obtain ⟨m, hm, hvalid⟩ := exists_mesh ht' hname'
    rw [List.map_append] at hname' hvalid
    obtain ⟨q, hq, hproper, hlen⟩ := Projection.exists_ofShardings hr hvalid
    simp only [decide, hname, ← hmeshes] at hdecide
    obtain ⟨_, hm', hdecide⟩ := bind_eq_ok_iff.1 hdecide
    cases hm.symm.trans hm'
    obtain ⟨p, hp, hdecide⟩ := bind_eq_ok_iff.1 hdecide
    obtain ⟨⟨p', us⟩, hp', hdecide⟩ := bind_eq_ok_iff.1 hdecide
    obtain ⟨updates, hupdates, hdecide⟩ := bind_eq_ok_iff.1 hdecide
    cases hdecide
    obtain ⟨hreplays, hsources⟩ := hproject name m p q hname' hm hp hq
    obtain ⟨q', hq', hreplays'⟩ := hreplays.propagate hA hsources hp'
    obtain ⟨_, us', hus', hadvances⟩ :=
      FactorStep.exists_propagate (s := g.factorStep m) (r := r) (d := e) hproper
    cases hq'.symm.trans hus'
    have hsource : ∀ u ∈ us, A u.target = true → ∃ v, o'.valueAt u.source = .ok v := by
      intro u hu hAu
      have hlt := Projection.mem_refs.1 (hadvances.updates u (List.mem_filter.2 ⟨hu, hAu⟩)).2
      rw [hlen] at hlt
      refine exists_valueAt ?_
      cases hside : u.source.side <;>
        simpa [hside, Program.signatureOf, Signature.shapes, Operation.values] using hlt
    obtain ⟨updates', hupdates', hagain⟩ :=
      exists_updatesOf_of_replays hreplays' hvalue hsource hupdates
    refine ⟨some ⟨name, m, updates'⟩, ?_, ?_⟩
    · simp only [decide, hname', hm, hq, hstep, hq', bind, Except.bind]
      rw [show updatesOf m o' r q' [] (us.filter fun u => A u.target) = .ok updates' from
        hupdates']
      rfl
    · rintro _ ⟨⟩ u' hu'
      obtain ⟨u, hu, hsame, hdim, haxes, x, hx, hv⟩ := hagain u' hu'
      rw [← hsame, ← hdim, ← haxes]
      exact ShardingTable.refine_eq_none_congr (hentry x hx _ hv) (hrefused _ rfl u hu)

end Propagator
end MeshSharding
