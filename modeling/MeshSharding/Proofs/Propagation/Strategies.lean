import MeshSharding.Proofs.AxisList.Meet
import MeshSharding.Proofs.Propagation.Appending

/-! The strategies where there is no conflict. Sources that shard a factor alike have one merged
form, which is their common part, and a target takes the same axes whichever way the candidate is
written. -/
namespace MeshSharding

open AxisList

namespace Policy

/-- Of several candidates the policy picks one. -/
def InRange (pick : Policy) : Prop :=
  ∀ m candidates, candidates ≠ [] → ∃ i, pick m candidates = some i ∧ i < candidates.length

theorem exists_largestFrom {m : Mesh} {index : Nat} {best : Option (Nat × Nat)}
    {candidates : List (List AxisRef)} (h : best.isSome ∨ candidates ≠ [])
    (hbest : ∀ b ∈ best, b.1 < index) :
    ∃ i, largestFrom m index best candidates = some i ∧ i < index + candidates.length := by
  induction candidates generalizing index best with
  | nil =>
    obtain ⟨b, rfl⟩ := Option.isSome_iff_exists.1 (h.resolve_right (by simp))
    exact ⟨b.1, rfl, hbest b rfl⟩
  | cons axes rest ih =>
    rw [List.length_cons, ← Nat.add_assoc, Nat.add_right_comm, largestFrom]
    split
    · exact ih (.inl rfl) fun b hb => by cases hb; exact Nat.lt_succ_self index
    · rename_i hall
      refine ih (.inl ?_) fun b hb => Nat.lt_succ_of_lt (hbest b hb)
      cases best with
      | none => exact absurd rfl hall
      | some b => rfl

theorem inRange_largest : InRange largest := fun m candidates hne => by
  have hpicks : ∃ i, largestFrom m 0 none candidates = some i ∧ i < 0 + candidates.length :=
    exists_largestFrom (.inr hne) nofun
  rwa [Nat.zero_add] at hpicks

end Policy

namespace AxisList

theorem stripPrefix?_congr {m : Mesh} {l l' : List AxisRef}
    (h : mergeAdjacent m l = mergeAdjacent m l') (part : List AxisRef) :
    stripPrefix? m l part = stripPrefix? m l' part := by
  rw [stripPrefix?, stripPrefix?, h]

end AxisList

namespace FactorStep

variable {s s' : FactorStep} {r : Rule} {p q : Projection} {d : Direction} {k : Nat}
  {towards towards' : List AxisRef} {source source' t : TensorRef} {ts : List TensorRef}
  {ks : List Nat} {us : List FactorUpdate} {xs : List (TensorRef × List AxisRef)}

section extension

/-- The strategy has no part in what a factor takes. -/
theorem grow_strategy (s : FactorStep) (c : Strategy) (size : Nat) (minorMost : Bool)
    (used : List AxisRef) (shards : Nat) (l : List AxisRef) :
    grow { s with strategy := c } size minorMost used shards l
      = s.grow size minorMost used shards l := by
  induction l generalizing shards with
  | nil => rfl
  | cons a l ih => simp only [grow, ih]

/-- A target takes the same axes under each strategy, whichever way the candidate is written. -/
theorem extension_strategy (c : Strategy)
    (h : mergeAdjacent s.mesh towards = mergeAdjacent s.mesh towards') :
    extension { s with strategy := c } r p k towards t = s.extension r p k towards' t := by
  simp only [extension, grow_strategy, stripPrefix?_congr h]
  rfl

theorem extendTargets_congr
    (h : ∀ p t, s'.extension r p k towards' t = s.extension r p k towards t)
    (hq : s.extendTargets r k towards source p ts = .ok (q, us)) :
    ∃ us', s'.extendTargets r k towards' source' p ts = .ok (q, us') ∧
      us'.map FactorUpdate.entry = us.map FactorUpdate.entry := by
  induction ts generalizing p us with
  | nil =>
    cases hq
    exact ⟨[], rfl, rfl⟩
  | cons t ts ih =>
    obtain ⟨hnil, hlast⟩ | ⟨a, more, updates, hmore, hlast, rfl⟩ := extendTargets_cons_eq_ok hq
    · rw [extendTargets_cons_of_nil ((h p t).trans hnil)]
      exact ih hlast
    · obtain ⟨us', hq', hentries⟩ := ih hlast
      refine ⟨⟨k, t, source'⟩ :: us', ?_, by simp [hentries, FactorUpdate.entry]⟩
      rw [extendTargets, h, hmore]
      simp only [bind, Except.bind, hq']
      rfl

end extension

section candidate

/-- The sources shard the factor alike. -/
def Agree (m : Mesh) (xs : List (TensorRef × List AxisRef)) : Prop :=
  ∀ x ∈ xs, ∀ y ∈ xs, equivalent m x.2 y.2 = true

theorem ne_nil_of_mem_sources {x : TensorRef × List AxisRef} (h : x ∈ sources p d k) :
    x.2 ≠ [] := by
  obtain ⟨t, -, h⟩ := List.mem_filterMap.1 h
  cases hf : p.factor? t k with
  | none => simp [hf] at h
  | some f =>
    simp only [hf] at h
    split at h
    · cases h
    · rename_i hne
      cases h
      simpa using hne

/-- The common part of sources that agree is the merged form of each of them. -/
theorem exists_candidate_basic (hagree : Agree s.mesh xs) (hne : ∀ x ∈ xs, x.2 ≠ [])
    (h : xs ≠ []) : ∃ towards source, candidate { s with strategy := .basic } xs
      = some (towards, source) ∧ ∀ x ∈ xs,
        mergeAdjacent s.mesh towards = mergeAdjacent s.mesh x.2 := by
  cases xs with
  | nil => exact absurd rfl h
  | cons x rest =>
    have hsame : ∀ y ∈ x :: rest, mergeAdjacent s.mesh y.2 = mergeAdjacent s.mesh x.2 :=
      fun y hy => of_decide_eq_true (hagree y hy x List.mem_cons_self)
    have hcommon : commonPrefixOfAll s.mesh (x.2 :: rest.map (·.2)) = mergeAdjacent s.mesh x.2 := by
      refine commonPrefixOfAll_of_equivalent fun l hl => ?_
      obtain ⟨y, hy, rfl⟩ := List.mem_map.1 hl
      exact hsame y (List.mem_cons_of_mem _ hy)
    refine ⟨mergeAdjacent s.mesh x.2, x.1, ?_, fun y hy => ?_⟩
    · simp only [candidate, hcommon, List.isEmpty_iff, mergeAdjacent_eq_nil_iff]
      rw [if_neg (hne x List.mem_cons_self)]
    · rw [mergeAdjacent_mergeAdjacent, hsame y hy]

/-- Whatever the policy picks is one of the sources. -/
theorem exists_candidate_aggressive (hpick : s.policy.InRange) (h : xs ≠ []) :
    ∃ x ∈ xs, candidate { s with strategy := .aggressive } xs = some (x.2, x.1) := by
  obtain ⟨i, hi, hlt⟩ := hpick s.mesh (xs.map (·.2)) (by simpa using h)
  rw [List.length_map] at hlt
  refine ⟨xs[i], List.getElem_mem hlt, ?_⟩
  cases xs with
  | nil => exact absurd rfl h
  | cons x rest =>
    simp only [candidate, bind, hi, Option.bind_some, List.getElem?_eq_getElem hlt]
    rfl

end candidate

section propagate

/-- Where the sources of a factor agree, both strategies extend the same targets alike. -/
theorem propagateFactor_strategies (hpick : s.policy.InRange)
    (hagree : r.factors[k]?.any flows = true → Agree s.mesh (sources p d k))
    (hq : propagateFactor { s with strategy := .basic } r d p k = .ok (q, us)) :
    ∃ us', propagateFactor { s with strategy := .aggressive } r d p k = .ok (q, us') ∧
      us'.map FactorUpdate.entry = us.map FactorUpdate.entry := by
  unfold propagateFactor at hq ⊢
  split at hq
  · rename_i hflows
    rw [if_pos hflows]
    by_cases hnone : sources p d k = []
    · rw [hnone] at hq ⊢
      cases hq
      exact ⟨[], rfl, rfl⟩
    · obtain ⟨towards, source, hbasic, hmerge⟩ := exists_candidate_basic (hagree hflows)
        (fun x hx => ne_nil_of_mem_sources hx) hnone
      obtain ⟨x, hx, haggressive⟩ := exists_candidate_aggressive hpick hnone
      rw [hbasic] at hq
      rw [haggressive]
      refine extendTargets_congr (fun p t => ?_) hq
      rw [extension_strategy .aggressive rfl, extension_strategy .basic (hmerge x hx)]
  · rename_i hflows
    rw [if_neg hflows]
    cases hq
    exact ⟨[], rfl, rfl⟩

theorem propagateFactors_strategies (hpick : s.policy.InRange) (hks : ks.Nodup)
    (hagree : ∀ k ∈ ks, r.factors[k]?.any flows = true → Agree s.mesh (sources p d k))
    (hq : propagateFactors { s with strategy := .basic } r d p ks = .ok (q, us)) :
    ∃ us', propagateFactors { s with strategy := .aggressive } r d p ks = .ok (q, us') ∧
      us'.map FactorUpdate.entry = us.map FactorUpdate.entry := by
  induction ks generalizing p us with
  | nil =>
    cases hq
    exact ⟨[], rfl, rfl⟩
  | cons k rest ih =>
    rw [List.nodup_cons] at hks
    rw [List.forall_mem_cons] at hagree
    obtain ⟨⟨next, first⟩, hfirst, hq⟩ := bind_eq_ok_iff.1 hq
    obtain ⟨⟨last, more⟩, hmore, hq⟩ := bind_eq_ok_iff.1 hq
    cases hq
    obtain ⟨first', hfirst', hentries⟩ := propagateFactor_strategies hpick hagree.1 hfirst
    -- the sources of the factors to come are those from before
    obtain ⟨more', hmore', hentries'⟩ := ih hks.2 (fun j hj hflows => by
      have hne : j ≠ k := fun heq => hks.1 (heq ▸ hj)
      rw [(onlyAt_propagateFactor hfirst).sources_eq d hne]
      exact hagree.2 j hj hflows) hmore
    refine ⟨first' ++ more', ?_, by rw [List.map_append, List.map_append, hentries, hentries']⟩
    simp only [propagateFactors, hfirst', hmore', bind, Except.bind]
    rfl

/-- Where the sources of every factor that is propagated agree, the strategies lead to the same
projection and update the same lists, whatever the policy picks. -/
theorem propagate_strategies (hpick : s.policy.InRange) {sig : Signature}
    (hr : r.verify sig = .ok ()) {shardings : Side → List (Option TensorSharding)}
    (hs : ∀ t, ∀ x ∈ Projection.shardingAt shardings t, x.Valid s.mesh)
    (hp : Projection.ofShardings s.mesh r (shardings .operand) (shardings .result) = .ok p)
    (hagree : ∀ k, r.factors[k]?.any flows = true → Agree s.mesh (sources p d k)) :
    ∃ q us us', propagate { s with strategy := .basic } r d p = .ok (q, us) ∧
      propagate { s with strategy := .aggressive } r d p = .ok (q, us') ∧
      us'.map FactorUpdate.entry = us.map FactorUpdate.entry := by
  obtain ⟨_, hstart, hproper⟩ := Projection.exists_ofShardings_of_valid hr hs
  cases hp.symm.trans hstart
  obtain ⟨q, us, hq, -⟩ :=
    exists_propagate (s := { s with strategy := .basic }) (r := r) (d := d) hproper
  obtain ⟨us', hq', hentries⟩ :=
    propagateFactors_strategies hpick List.nodup_range (fun k _ => hagree k) hq
  exact ⟨q, us, us', hq, hq', hentries⟩

/-- The operands write one axis as a whole and in two halves. -/
theorem propagate_strategies_grid :
    let s : FactorStep := ⟨.grid 4 2 (by decide) (by decide), .basic, Policy.largest, false⟩
    let r := Rule.ofSizes [8] [⟨[[0]]⟩, ⟨[[0]]⟩] [⟨[[0]]⟩]
    let shardings : Side → List (Option TensorSharding)
      | .operand => [some (.ofDims "mesh" [.ofAxes [.full "x"] false]),
          some (.ofDims "mesh" [.ofAxes [.sub "x" 1 2, .sub "x" 2 2] false])]
      | .result => [none]
    s.policy.InRange ∧ r.verify ⟨[[8], [8]], [[8]]⟩ = .ok () ∧
      (∀ t, ∀ x ∈ Projection.shardingAt shardings t, x.Valid s.mesh) ∧
      ∃ p, Projection.ofShardings s.mesh r (shardings .operand) (shardings .result) = .ok p ∧
        (∀ k, r.factors[k]?.any flows = true → Agree s.mesh (sources p .forward k)) ∧
        ∃ q us us', propagate { s with strategy := .basic } r .forward p = .ok (q, us) ∧
          propagate { s with strategy := .aggressive } r .forward p = .ok (q, us') ∧
          us'.map FactorUpdate.entry = us.map FactorUpdate.entry := by
  intro s r shardings
  have hr : r.verify ⟨[[8], [8]], [[8]]⟩ = .ok () := by decide
  have hs : ∀ t, ∀ x ∈ Projection.shardingAt shardings t, x.Valid s.mesh := by
    rintro ⟨side, i⟩ x hx
    have hvalid : ∀ x ∈ (shardings side)[i]?.getD none, x.validate s.mesh [8] = .ok () := by
      cases side <;> rcases i with _ | _ | i <;> first | decide | exact nofun
    exact (TensorSharding.validate_eq_ok_iff.1 (hvalid x hx)).2
  let tensor (axes : List AxisRef) : TensorFactors := ⟨[(0, ⟨axes, false, true, []⟩)], [], []⟩
  let p : Projection :=
    ⟨[tensor [.full "x"], tensor [.sub "x" 1 2, .sub "x" 2 2]], [tensor []]⟩
  have hp : Projection.ofShardings s.mesh r (shardings .operand) (shardings .result) = .ok p :=
    eq_ok_of_toOption (by decide)
  have hagree : ∀ k, r.factors[k]?.any flows = true → Agree s.mesh (sources p .forward k) := by
    intro k hk
    cases k with
    | zero => unfold Agree; decide
    | succ k => cases hk
  exact ⟨Policy.inRange_largest, hr, hs, p, hp, hagree,
    propagate_strategies Policy.inRange_largest hr hs hp hagree⟩

end propagate

end FactorStep
end MeshSharding
