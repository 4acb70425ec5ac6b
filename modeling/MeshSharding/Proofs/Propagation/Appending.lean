import Mathlib.Data.List.ProdSigma
import MeshSharding.Proofs.Propagation.Drawing
import MeshSharding.Proofs.Propagation.ReadBack

/-! What a step leaves as it is. Propagation only appends axes to the factors of its targets: what a
tensor had stays in front, flags and overflow stay, and the updates tell exactly which lists have
become longer. -/
namespace MeshSharding

open AxisList

namespace Projection

theorem nodup_refs (p : Projection) : p.refs.Nodup := by
  have hside : ∀ (side : Side) (n : Nat),
      ((List.range n).map fun i => TensorRef.mk side i).Nodup := fun side n =>
    List.nodup_range.map fun i j hij => by simpa using hij
  refine List.nodup_append.2 ⟨hside .operand _, hside .result _, fun x hx y hy => ?_⟩
  obtain ⟨i, -, rfl⟩ := List.mem_map.1 hx
  obtain ⟨j, -, rfl⟩ := List.mem_map.1 hy
  simp

end Projection

/-- The second one has the axes of the first one and others behind them, off which the first can be
taken again. There are no others if the factor is closed or overflows. -/
def FactorSharding.Extends (m : Mesh) (f g : FactorSharding) : Prop :=
  ∃ more, g = { f with axes := f.axes ++ more } ∧
    (stripPrefix? m (f.axes ++ more) f.axes).isSome ∧
    (f.closed = true ∨ f.overflow ≠ [] → more = [])

theorem FactorSharding.Extends.refl (m : Mesh) (f : FactorSharding) : f.Extends m f :=
  ⟨[], by rw [List.append_nil], by rw [List.append_nil, stripPrefix?_self]; rfl, fun _ => rfl⟩

/-- An open factor without overflow is extended further by valid axes. -/
theorem FactorSharding.Extends.append {m : Mesh} {f g : FactorSharding} {more : List AxisRef}
    (h : f.Extends m g) (hopen : g.closed = false) (hoverflow : g.overflow = [])
    (hv : AllValid m (g.axes ++ more)) : f.Extends m { g with axes := g.axes ++ more } := by
  obtain ⟨old, rfl, -, -⟩ := h
  rw [List.append_assoc] at hv ⊢
  obtain ⟨haxes, hnew⟩ := allValid_append.1 hv
  refine ⟨old ++ more, rfl, isSome_stripPrefix?_append haxes hnew, ?_⟩
  rintro (hclosed | hne)
  · exact absurd hclosed (by simpa using hopen)
  · exact absurd hoverflow hne

/-- The list that an update is about. -/
def FactorUpdate.entry (u : FactorUpdate) : Nat × TensorRef := (u.factor, u.target)

namespace FactorStep

variable {s : FactorStep} {r : Rule} {p q : Projection} {d : Direction} {k : Nat}
  {towards more : List AxisRef} {source t : TensorRef} {ts : List TensorRef} {ks : List Nat}
  {us : List FactorUpdate} {a : AxisRef}

section entries

theorem sublist_extendTargets (h : s.extendTargets r k towards source p ts = .ok (q, us)) :
    (us.map FactorUpdate.entry).Sublist (ts.map (k, ·)) := by
  induction ts generalizing p us with
  | nil =>
    cases h
    exact .slnil
  | cons t rest ih =>
    obtain ⟨-, hrest⟩ | ⟨a, more, updates, -, hrest, rfl⟩ := extendTargets_cons_eq_ok h
    · exact (ih hrest).cons _
    · exact (ih hrest).cons_cons _

theorem sublist_propagateFactor (h : s.propagateFactor r d p k = .ok (q, us)) :
    (us.map FactorUpdate.entry).Sublist ((p.refs.filter (isTarget d)).map (k, ·)) := by
  unfold propagateFactor at h
  split at h
  · split at h
    · cases h
      exact List.nil_sublist _
    · refine (sublist_extendTargets h).trans (List.Sublist.map _ ?_)
      exact List.monotone_filter_right _ fun t ht => by
        rw [decide_eq_true_eq] at ht
        exact ht.1
  · cases h
    exact List.nil_sublist _

theorem sublist_propagateFactors (h : s.propagateFactors r d p ks = .ok (q, us)) :
    (us.map FactorUpdate.entry).Sublist (ks ×ˢ p.refs.filter (isTarget d)) := by
  induction ks generalizing p us with
  | nil =>
    cases h
    exact .slnil
  | cons k rest ih =>
    obtain ⟨⟨next, first⟩, hfirst, h⟩ := bind_eq_ok_iff.1 h
    obtain ⟨⟨last, more⟩, hmore, h⟩ := bind_eq_ok_iff.1 h
    cases h
    have hrest := ih hmore
    rw [(onlyAt_propagateFactor hfirst).refs] at hrest
    rw [List.map_append, List.product_cons]
    exact (sublist_propagateFactor hfirst).append hrest

/-- The updates are for different factors or different targets, all of which the direction allows. -/
theorem nodup_propagate (h : s.propagate r d p = .ok (q, us)) :
    (us.map FactorUpdate.entry).Nodup ∧ ∀ u ∈ us, isTarget d u.target = true := by
  have hsub := sublist_propagateFactors h
  refine ⟨(List.nodup_range.product ((p.nodup_refs).filter _)).sublist hsub, fun u hu => ?_⟩
  have hmem := hsub.subset (List.mem_map_of_mem hu)
  exact (List.mem_filter.1 (List.mem_product.1 hmem).2).2

end entries

/-- What a step has done so far. -/
structure Grows (m : Mesh) (r : Rule) (p : Projection) (us : List FactorUpdate) (q : Projection) :
    Prop where
  proper : q.Proper m
  refs : q.refs = p.refs
  flowing : ∀ u ∈ us, r.factors[u.factor]?.any flows = true
  untouched : ∀ t, (∀ u ∈ us, u.target ≠ t) → q.tensor? t = p.tensor? t
  outside : ∀ t y, q.tensor? t = some y → ∃ x, p.tensor? t = some x ∧
    y.replicated = x.replicated ∧ y.unreduced = x.unreduced
  factors : ∀ t k, Option.Rel (FactorSharding.Extends m) (p.factor? t k) (q.factor? t k)
  changed : ∀ k t, (∃ u ∈ us, u.entry = (k, t)) ↔ axesOf q t k ≠ axesOf p t k

theorem Grows.refl {m : Mesh} (hp : p.Proper m) : Grows m r p [] p where
  proper := hp
  refs := rfl
  flowing := nofun
  untouched _ _ := rfl
  outside _ y hy := ⟨y, hy, rfl, rfl⟩
  factors t k := by
    cases p.factor? t k with
    | none => exact .none
    | some f => exact .some (.refl m f)
  changed k t := by simp

/-- The factors are those that were there, extended. -/
theorem Grows.exists_extends {m : Mesh} {f : FactorSharding} (h : Grows m r p us q)
    (hf : q.factor? t k = some f) : ∃ f₀, p.factor? t k = some f₀ ∧ f₀.Extends m f := by
  have hrel := h.factors t k
  rw [hf] at hrel
  cases hp : p.factor? t k with
  | none => rw [hp] at hrel; cases hrel
  | some f₀ => exact ⟨f₀, rfl, Option.rel_some_some.1 (hp ▸ hrel)⟩

/-- The factor that takes axes is extended, the others stay as they are. -/
theorem Grows.factors_setAxes {m : Mesh} {f : FactorSharding} (h : Grows m r p us q)
    (hf : q.factor? t k = some f) (hopen : f.closed = false) (hoverflow : f.overflow = [])
    (hv : AllValid m (f.axes ++ more)) (t' : TensorRef) (k' : Nat) :
    Option.Rel (FactorSharding.Extends m) (p.factor? t' k')
      ((q.setAxes t k (f.axes ++ more)).factor? t' k') := by
  rw [Projection.factor?_setAxes]
  split
  · rename_i heq
    obtain ⟨rfl, rfl⟩ := heq
    obtain ⟨f₀, hf₀, hextends⟩ := h.exists_extends hf
    rw [hf, hf₀]
    exact .some (hextends.append hopen hoverflow hv)
  · exact h.factors t' k'

/-- The list that has become longer joins those that changed. -/
theorem Grows.changed_setAxes {m : Mesh} {f : FactorSharding} (h : Grows m r p us q)
    (hf : q.factor? t k = some f) (hmore : more ≠ []) (k' : Nat) (t' : TensorRef) :
    (∃ u ∈ us ++ [⟨k, t, source⟩], u.entry = (k', t')) ↔
      axesOf (q.setAxes t k (f.axes ++ more)) t' k' ≠ axesOf p t' k' := by
  rw [axesOf, Projection.factor?_setAxes]
  by_cases heq : t' = t ∧ k' = k
  · obtain ⟨rfl, rfl⟩ := heq
    obtain ⟨f₀, hf₀, old, rfl, -, -⟩ := h.exists_extends hf
    rw [if_pos ⟨rfl, rfl⟩, hf]
    refine iff_of_true ⟨_, List.mem_append_right _ List.mem_cons_self, rfl⟩ ?_
    simp [axesOf, hf₀, hmore]
  · rw [if_neg heq, ← axesOf, ← h.changed]
    constructor
    · rintro ⟨u, hu, hentry⟩
      rcases List.mem_append.1 hu with hu | hu
      · exact ⟨u, hu, hentry⟩
      · rw [List.mem_singleton.1 hu] at hentry
        cases hentry
        exact absurd ⟨rfl, rfl⟩ heq
    · rintro ⟨u, hu, hentry⟩
      exact ⟨u, List.mem_append_left _ hu, hentry⟩

/-- A target takes axes behind those that it has. -/
theorem Grows.setAxes (h : Grows s.mesh r p us q) (hk : r.factors[k]?.any flows = true)
    (hv : AllValid s.mesh towards) (ha : Apart s.mesh towards)
    (hext : s.extension r q k towards t = .ok (a :: more)) :
    Grows s.mesh r p (us ++ [⟨k, t, source⟩]) (q.setAxes t k (axesOf q t k ++ a :: more)) := by
  obtain ⟨mapping, i, place, fs, x, f, -, hx, hexpands⟩ := exists_expands hext
  have htakes := takes_of_extension h.proper hv ha hext
  have hf : q.factor? t k = some f := by rw [Projection.factor?, hx]; exact hexpands.factor
  have haxes : axesOf q t k = f.axes := by simp [axesOf, hf]
  have hvalid : AllValid s.mesh (f.axes ++ a :: more) := by
    obtain ⟨y, g, hy, hg, hvalid, -⟩ := htakes
    cases hx.symm.trans hy
    cases hexpands.factor.symm.trans hg
    exact hvalid
  have hproper := htakes.setAxes h.proper
  rw [haxes] at hproper ⊢
  refine ⟨hproper, (Projection.refs_setAxes ..).trans h.refs, ?_, fun t' ht' => ?_,
    fun t' y hy => ?_, h.factors_setAxes hf (by simpa using hexpands.unclosed) hexpands.overflow
      hvalid, h.changed_setAxes hf (List.cons_ne_nil a more)⟩
  · rw [List.forall_mem_append, List.forall_mem_singleton]
    exact ⟨h.flowing, hk⟩
  · rw [List.forall_mem_append, List.forall_mem_singleton] at ht'
    rw [Projection.tensor?_setAxes, if_neg (Ne.symm ht'.2)]
    exact h.untouched t' ht'.1
  · rw [Projection.tensor?_setAxes] at hy
    split at hy
    · obtain ⟨y', hy', rfl⟩ := Option.map_eq_some_iff.1 hy
      exact h.outside t' y' hy'
    · exact h.outside t' y hy

theorem grows_propagate (hp : p.Proper s.mesh) (hq : s.propagate r d p = .ok (q, us)) :
    Grows s.mesh r p us q :=
  propagate_preserves (P := fun q us => Grows s.mesh r p us q) (fun h => h.proper)
    (fun h hk _ hv ha hext => h.setAxes hk hv ha hext) (.refl hp) hq

/-- A list that has not changed is that of a factor that has not changed. -/
theorem Grows.factor?_eq {m : Mesh} (h : Grows m r p us q) (heq : axesOf q t k = axesOf p t k) :
    q.factor? t k = p.factor? t k := by
  cases hq : q.factor? t k with
  | none =>
    have hrel := h.factors t k
    rw [hq] at hrel
    cases hp : p.factor? t k with
    | none => rfl
    | some f => rw [hp] at hrel; cases hrel
  | some g =>
    obtain ⟨f, hp, more, rfl, -, -⟩ := h.exists_extends hq
    have hnil : more = [] := by simpa [axesOf, hp, hq] using heq
    rw [hp, hnil, List.append_nil]

/-- A step only appends: the tensors that it may not change, the factors that are not propagated, the
flags, and the axes that overflow or are outside of dimensions stay as they are; no tensor claims a
part of an axis twice; and the updates tell which lists have become longer. -/
structure Appends (m : Mesh) (r : Rule) (d : Direction) (p q : Projection) (us : List FactorUpdate) :
    Prop where
  refs : q.refs = p.refs
  untargeted : ∀ t, isTarget d t = false → q.tensor? t = p.tensor? t
  unpropagated : ∀ t k factor, r.factors[k]? = some factor →
    factor.blocked = true ∨ factor.type = .needReplication → q.factor? t k = p.factor? t k
  outside : ∀ t y, q.tensor? t = some y → ∃ x, p.tensor? t = some x ∧
    y.replicated = x.replicated ∧ y.unreduced = x.unreduced
  factors : ∀ t k, Option.Rel (FactorSharding.Extends m) (p.factor? t k) (q.factor? t k)
  apart : ∀ t y, q.tensor? t = some y → y.claims.Pairwise fun a b => ¬ a.overlaps b m = true
  once : (us.map FactorUpdate.entry).Nodup
  changed : ∀ k t, (k, t) ∈ us.map FactorUpdate.entry ↔ axesOf q t k ≠ axesOf p t k

/-- Whatever the strategy and the policy, the projection of valid shardings is propagated, and the
step only appends. -/
theorem appends_propagate {sig : Signature} (hr : r.verify sig = .ok ())
    {shardings : Side → List (Option TensorSharding)}
    (hs : ∀ t, ∀ x ∈ Projection.shardingAt shardings t, x.Valid s.mesh) (d : Direction) :
    ∃ p q us, Projection.ofShardings s.mesh r (shardings .operand) (shardings .result) = .ok p ∧
      s.propagate r d p = .ok (q, us) ∧ Appends s.mesh r d p q us := by
  obtain ⟨p, hp, hproper⟩ := Projection.exists_ofShardings_of_valid hr hs
  obtain ⟨q, us, hq, -⟩ := exists_propagate (s := s) (r := r) (d := d) hproper
  have hgrows := grows_propagate hproper hq
  obtain ⟨honce, htargets⟩ := nodup_propagate hq
  have hchanged : ∀ k t, (k, t) ∈ us.map FactorUpdate.entry ↔ axesOf q t k ≠ axesOf p t k :=
    fun k t => List.mem_map.trans (hgrows.changed k t)
  refine ⟨p, q, us, hp, hq, hgrows.refs, fun t ht => ?_, fun t k factor hfactor hstill => ?_,
    hgrows.outside, hgrows.factors, fun t y hy => ?_, honce, hchanged⟩
  · refine hgrows.untouched t fun u hu heq => ?_
    have htrue := htargets u hu
    rw [heq, ht] at htrue
    cases htrue
  · refine hgrows.factor?_eq (Decidable.byContradiction fun hne => ?_)
    obtain ⟨u, hu, hentry⟩ := List.mem_map.1 ((hchanged k t).2 hne)
    have hflows := hgrows.flowing u hu
    rw [show u.factor = k from congrArg Prod.fst hentry, hfactor] at hflows
    rcases hstill with hstill | hstill <;> simp [flows, hstill] at hflows
  · exact (hgrows.proper t y hy).apart.pairwise (hgrows.proper t y hy).valid

/-- The result takes both factors of the operand, one of them a part of its axis. -/
theorem appends_propagate_grid :
    let s : FactorStep := ⟨.grid 4 2 (by decide) (by decide), .aggressive, Policy.largest, false⟩
    let r := Rule.ofSizes [2, 6] [⟨[[0, 1]]⟩] [⟨[[0], [1]]⟩]
    let sig : Signature := ⟨[[12]], [[2, 6]]⟩
    let shardings : Side → List (Option TensorSharding)
      | .operand => [some (.ofDims "mesh" [.ofAxes [.full "x", .full "y"] false])]
      | .result => [none]
    r.verify sig = .ok () ∧
      (∀ t, ∀ x ∈ Projection.shardingAt shardings t, x.Valid s.mesh) ∧
      ∃ p q us, Projection.ofShardings s.mesh r (shardings .operand) (shardings .result) = .ok p ∧
        s.propagate r .forward p = .ok (q, us) ∧ Appends s.mesh r .forward p q us := by
  intro s r sig shardings
  have hr : r.verify sig = .ok () := by decide
  have hs : ∀ t, ∀ x ∈ Projection.shardingAt shardings t, x.Valid s.mesh := by
    rintro ⟨side, i⟩ x hx
    cases side <;> rcases i with _ | i <;> cases hx
    have hvalid : TensorSharding.validate
        (.ofDims "mesh" [.ofAxes [.full "x", .full "y"] false]) s.mesh [12] = .ok () := by decide
    exact (TensorSharding.validate_eq_ok_iff.1 hvalid).2
  exact ⟨hr, hs, appends_propagate hr hs .forward⟩

end FactorStep
end MeshSharding
