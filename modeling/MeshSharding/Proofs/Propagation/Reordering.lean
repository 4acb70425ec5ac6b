import Mathlib.Logic.Equiv.Basic
import MeshSharding.Proofs.AxisList.Meet
import MeshSharding.Proofs.Propagation.Appending

/-! Operations with their operands and their results in another order. The common part of the
sources does not depend on their order, and what a target takes does not depend on the other
targets, so with the basic strategy each tensor gets the same factor shardings at its new place. -/
namespace MeshSharding

open AxisList

/-- For each new place among the operands and among the results of a rule, the old one. -/
structure Reordering (r : Rule) where
  perm : Side → Equiv.Perm Nat
  lt_iff : ∀ side i, perm side i < (r.mappings side).length ↔ i < (r.mappings side).length

namespace Reordering

variable {r : Rule} {m : Mesh} {t : TensorRef} {p p' : Projection}
  {given : Side → List (Option TensorSharding)}

/-- The old place of a tensor. -/
def old (o : Reordering r) (t : TensorRef) : TensorRef := ⟨t.side, o.perm t.side t.index⟩

/-- A list of what belongs to the operands, or to the results, in the new order. -/
def list {α : Type} (o : Reordering r) (side : Side) (l : List α) : List α :=
  l.mapIdx fun i x => l.getD (o.perm side i) x

def rule (o : Reordering r) : Rule :=
  { r with operands := o.list .operand r.operands, results := o.list .result r.results }

def shardings (o : Reordering r) (given : Side → List (Option TensorSharding)) (side : Side) :
    List (Option TensorSharding) := o.list side (given side)

/-- Two operands, or two results, change places. -/
def swap (r : Rule) (side : Side) {i j : Nat} (hi : i < (r.mappings side).length)
    (hj : j < (r.mappings side).length) : Reordering r where
  perm other := if other = side then Equiv.swap i j else Equiv.refl Nat
  lt_iff other k := by
    by_cases h : other = side
    · subst h
      rw [if_pos rfl, Equiv.swap_apply_def]
      split_ifs with hki hkj
      · simp [hki, hi, hj]
      · simp [hkj, hi, hj]
      · rfl
    · rw [if_neg h]
      rfl

theorem old_injective (o : Reordering r) : Function.Injective o.old := by
  rintro ⟨side, i⟩ ⟨side', j⟩ h
  simp only [old, TensorRef.mk.injEq] at h
  obtain ⟨rfl, h⟩ := h
  rw [(o.perm side).injective h]

theorem old_surjective (o : Reordering r) : Function.Surjective o.old := fun ⟨side, i⟩ =>
  ⟨⟨side, (o.perm side).symm i⟩, congrArg (TensorRef.mk side) ((o.perm side).apply_symm_apply i)⟩

theorem getElem?_list {α : Type} (o : Reordering r) (side : Side) {l : List α}
    (h : l.length = (r.mappings side).length) (i : Nat) :
    (o.list side l)[i]? = l[o.perm side i]? := by
  rw [list, List.getElem?_mapIdx]
  by_cases hlt : i < l.length
  · have hold : o.perm side i < l.length := by rwa [h, o.lt_iff, ← h]
    rw [List.getElem?_eq_getElem hlt, Option.map_some, List.getD_eq_getElem?_getD,
      List.getElem?_eq_getElem hold, Option.getD_some]
  · have hold : ¬ o.perm side i < l.length := by rwa [h, o.lt_iff, ← h]
    rw [List.getElem?_eq_none (Nat.not_lt.1 hlt), List.getElem?_eq_none (Nat.not_lt.1 hold)]
    rfl

theorem mapping?_rule (o : Reordering r) (t : TensorRef) :
    o.rule.mapping? t = r.mapping? (o.old t) := by
  obtain ⟨side, i⟩ := t
  cases side with
  | operand => exact o.getElem?_list .operand rfl i
  | result => exact o.getElem?_list .result rfl i

theorem shardingAt_shardings (o : Reordering r)
    (hlen : ∀ side, (given side).length = (r.mappings side).length) (t : TensorRef) :
    Projection.shardingAt (o.shardings given) t = Projection.shardingAt given (o.old t) := by
  rw [Projection.shardingAt, shardings, o.getElem?_list t.side (hlen t.side)]
  rfl

section project

theorem sizeOf?_rule (o : Reordering r) (k : Nat) : o.rule.sizeOf? k = r.sizeOf? k := rfl

theorem dealOut_rule (o : Reordering r) (closed : Bool) (fs : List Nat) (l : List AxisRef) :
    TensorFactors.dealOut m o.rule closed fs l = TensorFactors.dealOut m r closed fs l := by
  induction fs generalizing l with
  | nil => rfl
  | cons f rest ih =>
    cases rest with
    | nil => rfl
    | cons g rest => simp only [TensorFactors.dealOut, sizeOf?_rule, ih]

/-- A projection reads only the sizes of the factors. -/
theorem project_rule (o : Reordering r) (mapping : Mapping) (x : Option TensorSharding) :
    TensorFactors.project m o.rule mapping x = TensorFactors.project m r mapping x := by
  have hdims : ∀ (fss : List (List Nat)) (dims : List DimSharding),
      TensorFactors.dealOutDims m o.rule fss dims = TensorFactors.dealOutDims m r fss dims := by
    intro fss
    induction fss with
    | nil => exact fun _ => rfl
    | cons fs rest ih =>
      intro dims
      simp only [TensorFactors.dealOutDims, dealOut_rule, ih]
  simp only [TensorFactors.project, hdims]

end project

/-- Each tensor of the second projection is the one of the first that has been at its place. -/
def Mirrors (o : Reordering r) (p p' : Projection) : Prop :=
  ∀ t, p'.tensor? t = p.tensor? (o.old t)

theorem Mirrors.factor?_eq {o : Reordering r} (h : o.Mirrors p p') (t : TensorRef) (k : Nat) :
    p'.factor? t k = p.factor? (o.old t) k := by
  rw [Projection.factor?, Projection.factor?, h t]

theorem Mirrors.proper {o : Reordering r} (h : o.Mirrors p p') (hp : p.Proper m) :
    p'.Proper m := fun t x hx => hp (o.old t) x (h t ▸ hx)

theorem mem_refs_iff_isSome : t ∈ p.refs ↔ (p.tensor? t).isSome := by
  rw [Projection.mem_refs, Projection.tensor?]
  simp

theorem Mirrors.mem_refs {o : Reordering r} (h : o.Mirrors p p') :
    t ∈ p'.refs ↔ o.old t ∈ p.refs := by
  rw [mem_refs_iff_isSome, mem_refs_iff_isSome, h t]

/-- The tensors are those of the first projection, in another order. -/
theorem Mirrors.perm_refs {o : Reordering r} (h : o.Mirrors p p') :
    (p'.refs.map o.old).Perm p.refs := by
  refine (List.perm_ext_iff_of_nodup (p'.nodup_refs.map o.old_injective) p.nodup_refs).2
    fun t => ?_
  rw [List.mem_map]
  constructor
  · rintro ⟨t', ht', rfl⟩
    exact h.mem_refs.1 ht'
  · intro ht
    obtain ⟨t', rfl⟩ := o.old_surjective t
    exact ⟨t', h.mem_refs.2 ht, rfl⟩

/-- The projection of reordered shardings mirrors that of the given ones. -/
theorem exists_mirrors (o : Reordering r)
    (hlen : ∀ side, (given side).length = (r.mappings side).length)
    (hp : Projection.ofShardings m r (given .operand) (given .result) = .ok p) :
    ∃ p', Projection.ofShardings m o.rule (o.shardings given .operand)
      (o.shardings given .result) = .ok p' ∧ o.Mirrors p p' := by
  have hproject : ∀ t mapping, o.rule.mapping? t = some mapping → ∃ x,
      TensorFactors.project m o.rule mapping
        (Projection.shardingAt (o.shardings given) t) = .ok x := by
    intro t mapping hmapping
    rw [mapping?_rule] at hmapping
    obtain ⟨x, hx⟩ := Option.isSome_iff_exists.1 <|
      (Projection.tensor?_isSome_iff hp).2 (Option.isSome_of_eq_some hmapping)
    obtain ⟨mapping', hmapping', hx⟩ := (Projection.tensor?_eq_some_iff hp).1 hx
    cases hmapping.symm.trans hmapping'
    exact ⟨x, by rw [project_rule, shardingAt_shardings o hlen, hx]⟩
  have hside : ∀ side, ∃ ts, Projection.projectAll m o.rule (o.rule.mappings side)
      (o.shardings given side) = .ok ts :=
    fun side => Projection.exists_projectAll fun i => hproject ⟨side, i⟩
  obtain ⟨os, hos⟩ := hside .operand
  obtain ⟨rs, hrs⟩ := hside .result
  have hp' : Projection.ofShardings m o.rule (o.shardings given .operand)
      (o.shardings given .result) = .ok ⟨os, rs⟩ := by
    simp only [Rule.mappings] at hos hrs
    simp only [Projection.ofShardings, hos, hrs, bind, Except.bind]
    rfl
  refine ⟨_, hp', fun t => Option.ext fun x => ?_⟩
  rw [Projection.tensor?_eq_some_iff hp', Projection.tensor?_eq_some_iff hp]
  simp only [mapping?_rule, project_rule, shardingAt_shardings o hlen]

end Reordering

namespace FactorStep

variable {s : FactorStep} {r : Rule} {o : Reordering r} {p p' q q' : Projection} {d : Direction}
  {k : Nat} {towards : List AxisRef} {source source' t : TensorRef} {ts ts' : List TensorRef}
  {ks : List Nat} {us us' : List FactorUpdate} {xs ys : List (TensorRef × List AxisRef)}

section targets

theorem axesOf_congr (h : q.tensor? t = p.tensor? t) : axesOf q t k = axesOf p t k := by
  rw [axesOf, axesOf, Projection.factor?, Projection.factor?, h]

/-- What a target takes, it takes from what it was before the others were extended. -/
theorem tensor?_extendTargets (hts : ts.Nodup)
    (h : s.extendTargets r k towards source p ts = .ok (q, us)) (t : TensorRef) :
    (t ∉ ts → q.tensor? t = p.tensor? t) ∧
      (t ∈ ts → ∃ more, s.extension r p k towards t = .ok more ∧
        q.tensor? t = if more = [] then p.tensor? t else
          (p.tensor? t).map fun x => x.setAxes k (axesOf p t k ++ more)) := by
  induction ts generalizing p us with
  | nil =>
    cases h
    exact ⟨fun _ => rfl, nofun⟩
  | cons t₀ rest ih =>
    rw [List.nodup_cons] at hts
    obtain ⟨hnil, hlast⟩ | ⟨a, more, updates, hmore, hlast, -⟩ := extendTargets_cons_eq_ok h
    · obtain ⟨hout, hin⟩ := ih hts.2 hlast
      refine ⟨fun ht => hout fun hmem => ht (List.mem_cons_of_mem _ hmem), fun ht => ?_⟩
      rcases List.mem_cons.1 ht with rfl | ht
      · exact ⟨[], hnil, hout hts.1⟩
      · exact hin ht
    · obtain ⟨hout, hin⟩ := ih hts.2 hlast
      have hother : ∀ t, t ≠ t₀ →
          (p.setAxes t₀ k (axesOf p t₀ k ++ a :: more)).tensor? t = p.tensor? t := fun t ht => by
        rw [Projection.tensor?_setAxes, if_neg ht]
      refine ⟨fun ht => ?_, fun ht => ?_⟩
      · rw [List.mem_cons, not_or] at ht
        rw [hout ht.2, hother t ht.1]
      · rcases List.mem_cons.1 ht with rfl | ht
        · refine ⟨a :: more, hmore, ?_⟩
          rw [hout hts.1, Projection.tensor?_setAxes, if_pos rfl, if_neg (List.cons_ne_nil a more)]
        · have hne : t ≠ t₀ := fun heq => hts.1 (heq ▸ ht)
          obtain ⟨taken, htaken, hq⟩ := hin ht
          rw [extension_congr (hother t hne)] at htaken
          refine ⟨taken, htaken, ?_⟩
          rw [hq, axesOf_congr (hother t hne), hother t hne]

/-- A tensor takes the same at its new place. -/
theorem extension_mirrors (h : o.Mirrors p p') (t : TensorRef) :
    s.extension o.rule p' k towards t = s.extension r p k towards (o.old t) := by
  simp only [extension, canExpand, h t, o.mapping?_rule, o.sizeOf?_rule]
  rfl

theorem mirrors_extendTargets (h : o.Mirrors p p') (hts : ts.Nodup) (hts' : ts'.Nodup)
    (hmem : ∀ t, t ∈ ts' ↔ o.old t ∈ ts)
    (hq : s.extendTargets r k towards source p ts = .ok (q, us))
    (hq' : s.extendTargets o.rule k towards source' p' ts' = .ok (q', us')) : o.Mirrors q q' := by
  intro t
  obtain ⟨hout, hin⟩ := tensor?_extendTargets hts hq (o.old t)
  obtain ⟨hout', hin'⟩ := tensor?_extendTargets hts' hq' t
  by_cases ht : t ∈ ts'
  · obtain ⟨more, hmore, hx⟩ := hin ((hmem t).1 ht)
    obtain ⟨more', hmore', hx'⟩ := hin' ht
    rw [extension_mirrors h, hmore] at hmore'
    cases hmore'
    rw [hx, hx', h t, axesOf, axesOf, h.factor?_eq]
  · rw [hout' ht, hout fun hold => ht ((hmem t).2 hold), h t]

end targets

section candidate

/-- With the basic strategy the candidate is the common part of the sources. -/
theorem candidate_basic_eq (hs : s.strategy = .basic) (xs : List (TensorRef × List AxisRef)) :
    (s.candidate xs).map (·.1) = if (commonPrefixOfAll s.mesh (xs.map (·.2))).isEmpty then none
      else some (commonPrefixOfAll s.mesh (xs.map (·.2))) := by
  cases xs with
  | nil => simp [candidate, commonPrefixOfAll]
  | cons x rest =>
    simp only [candidate, hs, List.map_cons]
    split <;> rfl

theorem candidate_perm (hs : s.strategy = .basic) (h : (xs.map (·.2)).Perm (ys.map (·.2)))
    (hv : ∀ x ∈ xs, AllValid s.mesh x.2) :
    (s.candidate xs).map (·.1) = (s.candidate ys).map (·.1) := by
  rw [candidate_basic_eq hs, candidate_basic_eq hs,
    commonPrefixOfAll_perm h fun l hl => by
      obtain ⟨x, hx, rfl⟩ := List.mem_map.1 hl
      exact hv x hx]

/-- The axes of the sources are the same, in another order. -/
theorem perm_sources (h : o.Mirrors p p') (d : Direction) (k : Nat) :
    ((sources p' d k).map (·.2)).Perm ((sources p d k).map (·.2)) := by
  have hperm := (h.perm_refs.filter (isSource d)).filterMap fun t => (p.factor? t k).bind fun f =>
    if f.axes.isEmpty then none else some f.axes
  have haxes : ∀ p : Projection, (sources p d k).map (·.2)
      = (p.refs.filter (isSource d)).filterMap fun t => (p.factor? t k).bind fun f =>
        if f.axes.isEmpty then none else some f.axes := by
    intro p
    rw [sources, List.map_filterMap]
    refine List.filterMap_congr fun t _ => ?_
    cases p.factor? t k with
    | none => rfl
    | some f => by_cases hf : f.axes = [] <;> simp [hf]
  rw [haxes, haxes]
  rw [List.filter_map, List.filterMap_map] at hperm
  refine .trans (.of_eq ?_) hperm
  have hfilter : isSource d ∘ o.old = isSource d := rfl
  rw [hfilter]
  exact List.filterMap_congr fun t _ => by rw [h.factor?_eq]; rfl

end candidate

section propagate

theorem mem_targets (h : o.Mirrors p p') (t : TensorRef) :
    t ∈ targets p' d k ↔ o.old t ∈ targets p d k := by
  rw [targets, targets, List.mem_filter, List.mem_filter, h.mem_refs, h.factor?_eq]
  exact Iff.rfl

theorem nodup_targets (p : Projection) (d : Direction) (k : Nat) : (targets p d k).Nodup :=
  p.nodup_refs.filter _

/-- Each factor is propagated alike. -/
theorem mirrors_propagateFactor (hs : s.strategy = .basic) (h : o.Mirrors p p')
    (hp : p.Proper s.mesh) (hq : s.propagateFactor r d p k = .ok (q, us))
    (hq' : s.propagateFactor o.rule d p' k = .ok (q', us')) : o.Mirrors q q' := by
  have hcandidate := candidate_perm hs (perm_sources h d k) fun x hx =>
    (valid_and_apart_of_mem_sources (h.proper hp) hx).1
  unfold propagateFactor at hq hq'
  rw [show o.rule.factors = r.factors from rfl] at hq'
  split at hq
  · rename_i hflows
    rw [if_pos hflows] at hq'
    cases hfirst : s.candidate (sources p d k) with
    | none =>
      rw [hfirst, Option.map_none, Option.map_eq_none_iff] at hcandidate
      rw [hfirst] at hq
      rw [hcandidate] at hq'
      cases hq
      cases hq'
      exact h
    | some c =>
      rw [hfirst, Option.map_some] at hcandidate
      obtain ⟨c', hsecond, heq⟩ := Option.map_eq_some_iff.1 hcandidate
      obtain ⟨towards, source⟩ := c
      obtain ⟨_, source'⟩ := c'
      cases heq
      rw [hfirst] at hq
      rw [hsecond] at hq'
      exact mirrors_extendTargets h (nodup_targets ..) (nodup_targets ..) (mem_targets h) hq hq'
  · rename_i hflows
    rw [if_neg hflows] at hq'
    cases hq
    cases hq'
    exact h

theorem exists_mirrors_propagateFactors (hs : s.strategy = .basic) (h : o.Mirrors p p')
    (hp : p.Proper s.mesh) (d : Direction) (ks : List Nat) :
    ∃ q us q' us', s.propagateFactors r d p ks = .ok (q, us) ∧
      s.propagateFactors o.rule d p' ks = .ok (q', us') ∧ o.Mirrors q q' := by
  induction ks generalizing p p' with
  | nil => exact ⟨p, [], p', [], rfl, rfl, h⟩
  | cons k rest ih =>
    obtain ⟨q₁, us₁, hq₁, hadvances⟩ := exists_propagateFactor (r := r) (d := d) hp k
    obtain ⟨q₁', us₁', hq₁', -⟩ := exists_propagateFactor (r := o.rule) (d := d) (h.proper hp) k
    obtain ⟨q, us, q', us', hq, hq', hlast⟩ :=
      ih (mirrors_propagateFactor hs h hp hq₁ hq₁') hadvances.proper
    refine ⟨q, us₁ ++ us, q', us₁' ++ us', ?_, ?_, hlast⟩
    · simp only [propagateFactors, hq₁, hq, bind, Except.bind]
      rfl
    · simp only [propagateFactors, hq₁', hq', bind, Except.bind]
      rfl

/-- With the basic strategy, propagation gives each tensor the same factor shardings in whichever
order the operands and the results are. -/
theorem tensor?_propagate_reordered (hs : s.strategy = .basic) {sig : Signature}
    (hr : r.verify sig = .ok ()) {shardings : Side → List (Option TensorSharding)}
    (hlen : ∀ side, (shardings side).length = (r.mappings side).length)
    (hv : ∀ t, ∀ x ∈ Projection.shardingAt shardings t, x.Valid s.mesh) (o : Reordering r)
    (d : Direction) :
    ∃ p q us p' q' us',
      Projection.ofShardings s.mesh r (shardings .operand) (shardings .result) = .ok p ∧
      s.propagate r d p = .ok (q, us) ∧
      Projection.ofShardings s.mesh o.rule (o.shardings shardings .operand)
        (o.shardings shardings .result) = .ok p' ∧
      s.propagate o.rule d p' = .ok (q', us') ∧
      ∀ t, q'.tensor? t = q.tensor? (o.old t) := by
  obtain ⟨p, hp, hproper⟩ := Projection.exists_ofShardings_of_valid hr hv
  obtain ⟨p', hp', hmirrors⟩ := o.exists_mirrors hlen hp
  obtain ⟨q, us, q', us', hq, hq', hlast⟩ :=
    exists_mirrors_propagateFactors hs hmirrors hproper d (List.range r.factorCount)
  exact ⟨p, q, us, p', q', us', hp, hq, hp', hq', hlast⟩

/-- Two operands whose windows are not parts of each other change places. -/
theorem tensor?_propagate_reordered_grid :
    let s : FactorStep := ⟨.grid 6 2 (by decide) (by decide), .basic, Policy.largest, false⟩
    let r := Rule.ofSizes [6] [⟨[[0]]⟩, ⟨[[0]]⟩] [⟨[[0]]⟩]
    let o : Reordering r := .swap r .operand (i := 0) (j := 1) (by decide) (by decide)
    let shardings : Side → List (Option TensorSharding)
      | .operand => [some (.ofDims "mesh" [.ofAxes [.sub "x" 1 2] false]),
          some (.ofDims "mesh" [.ofAxes [.sub "x" 1 3] false])]
      | .result => [none]
    s.strategy = .basic ∧ r.verify ⟨[[6], [6]], [[6]]⟩ = .ok () ∧
      (∀ side, (shardings side).length = (r.mappings side).length) ∧
      (∀ t, ∀ x ∈ Projection.shardingAt shardings t, x.Valid s.mesh) ∧
      ∃ p q us p' q' us',
        Projection.ofShardings s.mesh r (shardings .operand) (shardings .result) = .ok p ∧
        s.propagate r .forward p = .ok (q, us) ∧
        Projection.ofShardings s.mesh o.rule (o.shardings shardings .operand)
          (o.shardings shardings .result) = .ok p' ∧
        s.propagate o.rule .forward p' = .ok (q', us') ∧
        ∀ t, q'.tensor? t = q.tensor? (o.old t) := by
  intro s r o shardings
  have hr : r.verify ⟨[[6], [6]], [[6]]⟩ = .ok () := by decide
  have hlen : ∀ side, (shardings side).length = (r.mappings side).length := by
    intro side
    cases side <;> rfl
  have hv : ∀ t, ∀ x ∈ Projection.shardingAt shardings t, x.Valid s.mesh := by
    rintro ⟨side, i⟩ x hx
    have hvalid : ∀ x ∈ (shardings side)[i]?.getD none, x.validate s.mesh [6] = .ok () := by
      cases side <;> rcases i with _ | _ | i <;> first | decide | exact nofun
    exact (TensorSharding.validate_eq_ok_iff.1 (hvalid x hx)).2
  exact ⟨rfl, hr, hlen, hv, tensor?_propagate_reordered rfl hr hlen hv o .forward⟩

end propagate

end FactorStep
end MeshSharding
