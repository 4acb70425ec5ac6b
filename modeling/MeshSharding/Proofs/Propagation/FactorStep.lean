import MeshSharding.Propagation.FactorStep
import MeshSharding.Proofs.AxisList.Prefix
import MeshSharding.Proofs.Propagation.TensorFactors

/-! Steps of propagation between the tensors of an operation. Whatever the candidate, a target
grows only by axes that it leaves free, so that no tensor claims a place of an axis twice. -/
namespace MeshSharding

open AxisList

namespace Projection

variable {m : Mesh} {p : Projection} {t : TensorRef}

/-- No tensor claims a place of an axis twice. -/
def Proper (m : Mesh) (p : Projection) : Prop :=
  ∀ t tensor, p.tensor? t = some tensor → tensor.Proper m

theorem tensor?_setAxes (p : Projection) (t t' : TensorRef) (k : Nat) (axes : List AxisRef) :
    (p.setAxes t k axes).tensor? t' = if t' = t
      then (p.tensor? t').map fun x => x.setAxes k axes else p.tensor? t' := by
  obtain ⟨side, i⟩ := t
  obtain ⟨side', i'⟩ := t'
  cases side <;> cases side' <;>
    simp only [tensor?, setAxes, tensors, List.getElem?_modify, TensorRef.mk.injEq, reduceCtorEq,
      true_and, false_and, if_false, eq_comm (a := i)] <;>
    split <;> simp

theorem refs_setAxes (p : Projection) (t : TensorRef) (k : Nat) (axes : List AxisRef) :
    (p.setAxes t k axes).refs = p.refs := by
  unfold setAxes refs
  cases t.side <;> simp

theorem tensor?_isSome (h : t ∈ p.refs) : (p.tensor? t).isSome := by
  obtain ⟨side, i⟩ := t
  cases side <;> simpa [refs, tensor?, tensors] using h

end Projection

namespace FactorStep

variable {s : FactorStep} {r : Rule} {p : Projection}

section grow

variable {shards : Nat} {used l : List AxisRef}

/-- The axes are a part of a list that the used ones leave free. -/
structure Free (m : Mesh) (used l more : List AxisRef) : Prop where
  valid : AllValid m more
  covers_le : ∀ name c, coverage m name c more ≤ coverage m name c l
  free : ∀ name c, 0 < coverage m name c more → coverage m name c used = 0

theorem Free.nil (m : Mesh) (used l : List AxisRef) : Free m used l [] :=
  ⟨nofun, fun _ _ => Nat.zero_le _, by simp⟩

theorem Free.cons {m : Mesh} {a : AxisRef} {rest more : List AxisRef} (ha : a.Valid m)
    (hfree : ∀ name c, a.covers m name c = true → coverage m name c used = 0)
    (h : Free m used rest more) : Free m used (a :: rest) (a :: more) := by
  refine ⟨allValid_cons.2 ⟨ha, h.valid⟩, fun name c => ?_, fun name c hpos => ?_⟩
  · rw [coverage_cons, coverage_cons name c a rest]
    exact Nat.add_le_add_left (h.covers_le name c) _
  · rw [coverage_cons, coverage_singleton] at hpos
    by_cases hc : a.covers m name c = true
    · exact hfree name c hc
    · exact h.free name c (by simpa [hc] using hpos)

/-- A major part of the first axis alone. -/
theorem Free.split {m : Mesh} {a : AxisRef} {rest : List AxisRef} (ha : a.Valid m)
    (hfree : ∀ name c, a.covers m name c = true → coverage m name c used = 0) (n : Nat) :
    Free m used (a :: rest) ((a.split n m).toList.map (·.1)) := by
  cases hsplit : a.split n m with
  | none => exact Free.nil ..
  | some parts =>
    obtain ⟨x, y⟩ := parts
    obtain ⟨hx, hy, hm, hmerge, -⟩ := AxisRef.split_eq_some ha hsplit
    have hcov : ∀ name c, coverage m name c [x] ≤ coverage m name c [a] := fun name c => by
      rw [← hmerge, coverage_merge hx hy hm]
      exact Nat.le_add_right ..
    refine ⟨by simpa [AllValid] using hx, fun name c => ?_, fun name c hpos => ?_⟩
    · rw [coverage_cons name c a rest]
      exact Nat.le_trans (hcov name c) (Nat.le_add_right ..)
    · refine hfree name c (Decidable.byContradiction fun hc => ?_)
      have hle := hcov name c
      rw [coverage_singleton name c a, if_neg hc] at hle
      exact Nat.not_lt_of_le hle hpos

/-- A factor takes nothing, or the first axis with what it takes behind it, or that axis alone if it
is the minor-most one, or a major part of that axis. -/
theorem grow_cons_eq_ok {a : AxisRef} {size : Nat} {minorMost : Bool} {more : List AxisRef}
    (h : s.grow size minorMost used shards (a :: l) = .ok more) :
    more = [] ∨
    (∃ tail, shards * a.size s.mesh ∣ size ∧
      s.grow size minorMost used (shards * a.size s.mesh) l = .ok tail ∧ more = a :: tail) ∨
    (minorMost = true ∧ more = [a]) ∨
    ∃ parts, shards ∣ size ∧
      a.split (Nat.gcd (size / shards) (a.size s.mesh)) s.mesh = some parts ∧
      more = [parts.1] := by
  unfold grow at h
  split at h
  · cases h
    exact .inl rfl
  · split at h
    · cases h
    · split at h
      · rename_i hmod
        obtain ⟨tail, htail, h⟩ := bind_eq_ok_iff.1 h
        cases h
        exact .inr (.inl ⟨tail, Nat.dvd_of_mod_eq_zero hmod, htail, rfl⟩)
      · split at h
        · cases h
          exact .inl rfl
        · split at h
          · rename_i hminor
            cases h
            exact .inr (.inr (.inl ⟨hminor.1, rfl⟩))
          · split at h
            · rename_i hmod
              cases h
              cases hsplit : a.split (Nat.gcd (size / shards) (a.size s.mesh)) s.mesh with
              | none => exact .inl rfl
              | some parts =>
                exact .inr (.inr (.inr ⟨parts, Nat.dvd_of_mod_eq_zero hmod, rfl, rfl⟩))
            · cases h
              exact .inl rfl

/-- A factor grows by a part of the axes that the used ones leave free. -/
theorem exists_grow (size : Nat) (minorMost : Bool) (hl : AllValid s.mesh l)
    (hu : AllValid s.mesh used) (hshards : 0 < shards) :
    ∃ more, s.grow size minorMost used shards l = .ok more ∧ Free s.mesh used l more := by
  induction l generalizing shards with
  | nil => exact ⟨[], rfl, Free.nil ..⟩
  | cons a rest ih =>
    rw [allValid_cons] at hl
    have hpos : 0 < shards * a.size s.mesh := Nat.mul_pos hshards hl.1.size_pos
    unfold grow
    by_cases hused : (overlapsAny s.mesh a used || (s.conservative && a.isSub)) = true
    · exact ⟨[], if_pos hused, Free.nil ..⟩
    · rw [if_neg hused, if_neg (by omega)]
      have hfree : ∀ name c, a.covers s.mesh name c = true →
          coverage s.mesh name c used = 0 := by
        refine (not_overlaps_iff hl.1 hu).1 fun b hb hov => hused ?_
        rw [Bool.or_eq_true]
        exact .inl (List.any_eq_true.2 ⟨b, hb, hov⟩)
      have halone : Free s.mesh used (a :: rest) [a] := by
        have := Free.cons hl.1 hfree (Free.nil s.mesh used rest)
        exact this
      split
      · obtain ⟨more, hmore, hpart⟩ := ih hl.2 hpos
        exact ⟨a :: more, by rw [hmore]; rfl, hpart.cons hl.1 hfree⟩
      · split
        · exact ⟨[], rfl, Free.nil ..⟩
        · split
          · exact ⟨[a], rfl, halone⟩
          · split
            · exact ⟨_, rfl, Free.split hl.1 hfree _⟩
            · exact ⟨[], rfl, Free.nil ..⟩

end grow

section extension

variable {k : Nat} {towards : List AxisRef} {t : TensorRef}

/-- A factor of a tensor that may take the axes. -/
def Takes (m : Mesh) (p : Projection) (t : TensorRef) (k : Nat) (more : List AxisRef) : Prop :=
  ∃ tensor f, p.tensor? t = some tensor ∧ tensor.factor? k = some f ∧
    AllValid m (f.axes ++ more) ∧ Apart m (f.axes ++ more ++ tensor.usedExcept k)

/-- Towards valid axes a factor takes what the tensor leaves free. -/
theorem takes_of_free {m : Mesh} (hp : p.Proper m) (hv : AllValid m towards)
    (ha : Apart m towards) {tensor : TensorFactors} {f : FactorSharding} {rest more : List AxisRef}
    (htensor : p.tensor? t = some tensor) (hf : tensor.factor? k = some f)
    (hstrip : stripPrefix? m towards f.axes = some rest)
    (hfree : Free m (tensor.usedExcept k) rest more) : Takes m p t k more := by
  have hproper := hp t tensor htensor
  have hperm := TensorFactors.perm_claims hproper.keys hf
  have haxes := (allValid_append.1 (hproper.valid.perm hperm.symm)).1
  refine ⟨tensor, f, htensor, hf, allValid_append.2 ⟨haxes, hfree.valid⟩, fun name c => ?_⟩
  have hold := hproper.apart.perm hperm.symm name c
  have htowards := ha name c
  have hmore := hfree.covers_le name c
  rw [coverage_stripPrefix? hv haxes hstrip] at htowards
  simp only [coverage_append] at hold ⊢
  by_cases hc : 0 < coverage m name c more
  · have := hfree.free name c hc
    omega
  · omega

theorem exists_extension (hp : p.Proper s.mesh) (hv : AllValid s.mesh towards)
    (ha : Apart s.mesh towards) :
    ∃ more, s.extension r p k towards t = .ok more ∧ (more = [] ∨ Takes s.mesh p t k more) := by
  unfold extension
  cases htensor : p.tensor? t with
  | none => exact ⟨[], rfl, .inl rfl⟩
  | some tensor =>
    cases hf : tensor.factor? k with
    | none => exact ⟨[], by simp only [hf], .inl rfl⟩
    | some f =>
      have hproper := hp t tensor htensor
      have hperm := TensorFactors.perm_claims hproper.keys hf
      obtain ⟨haxes, hused⟩ := allValid_append.1 (hproper.valid.perm hperm.symm)
      by_cases hcan : s.canExpand r t tensor k f = true
      · cases hstrip : stripPrefix? s.mesh towards f.axes with
        | none => exact ⟨[], by simp only [hf, hcan, if_true, hstrip], .inl rfl⟩
        | some rest =>
          cases hsize : r.sizeOf? k with
          | none => exact ⟨[], by simp only [hf, hcan, if_true, hstrip], .inl rfl⟩
          | some size =>
            have hrest := (stripPrefix?_eq_some hv haxes hstrip).1
            obtain ⟨more, hmore, hfree⟩ :=
              exists_grow size f.minorMost hrest hused (totalSize_pos haxes)
            exact ⟨more, by simp only [hf, hcan, if_true, hstrip, hmore],
              .inr (takes_of_free hp hv ha htensor hf hstrip hfree)⟩
      · exact ⟨[], by simp only [hf, hcan, if_false, Bool.false_eq_true], .inl rfl⟩

theorem Takes.setAxes {m : Mesh} {more : List AxisRef} (hp : p.Proper m)
    (h : Takes m p t k more) : (p.setAxes t k (axesOf p t k ++ more)).Proper m := by
  obtain ⟨tensor, f, htensor, hf, hv, ha⟩ := h
  have haxes : axesOf p t k = f.axes := by simp [axesOf, Projection.factor?, htensor, hf]
  intro t' tensor' htensor'
  rw [Projection.tensor?_setAxes] at htensor'
  split at htensor'
  · rename_i ht
    rw [ht, htensor] at htensor'
    cases htensor'
    rw [haxes]
    exact (hp t tensor htensor).setAxes hf hv ha
  · exact hp t' tensor' htensor'

end extension

section targets

variable {k : Nat} {towards : List AxisRef} {source : TensorRef} {d : Direction}

/-- A step from one projection to another, between tensors of the operation. -/
structure Advances (m : Mesh) (p q : Projection) (updates : List FactorUpdate) : Prop where
  proper : q.Proper m
  refs : q.refs = p.refs
  updates : ∀ u ∈ updates, u.target ∈ p.refs ∧ u.source ∈ p.refs

theorem Advances.refl {m : Mesh} (hp : p.Proper m) : Advances m p p [] := ⟨hp, rfl, nofun⟩

theorem Advances.trans {m : Mesh} {q q' : Projection} {us us' : List FactorUpdate}
    (h : Advances m p q us) (h' : Advances m q q' us') : Advances m p q' (us ++ us') := by
  refine ⟨h'.proper, h'.refs.trans h.refs, fun u hu => ?_⟩
  rcases List.mem_append.1 hu with hu | hu
  · exact h.updates u hu
  · exact h.refs ▸ h'.updates u hu

section targets

variable {t : TensorRef} {ts : List TensorRef} {q : Projection} {us : List FactorUpdate}

theorem extendTargets_cons_of_nil (h : s.extension r p k towards t = .ok []) :
    s.extendTargets r k towards source p (t :: ts) = s.extendTargets r k towards source p ts := by
  rw [extendTargets, h]
  rfl

/-- The first target takes nothing, or some axes. -/
theorem extendTargets_cons_eq_ok
    (h : s.extendTargets r k towards source p (t :: ts) = .ok (q, us)) :
    (s.extension r p k towards t = .ok [] ∧
      s.extendTargets r k towards source p ts = .ok (q, us)) ∨
    ∃ a more updates, s.extension r p k towards t = .ok (a :: more) ∧
      s.extendTargets r k towards source (p.setAxes t k (axesOf p t k ++ a :: more)) ts
        = .ok (q, updates) ∧ us = ⟨k, t, source⟩ :: updates := by
  rw [extendTargets] at h
  obtain ⟨_ | ⟨a, more⟩, hmore, h⟩ := bind_eq_ok_iff.1 h
  · exact .inl ⟨hmore, h⟩
  · obtain ⟨⟨last, updates⟩, hlast, h⟩ := bind_eq_ok_iff.1 h
    cases h
    exact .inr ⟨a, more, updates, hmore, hlast, rfl⟩

end targets

theorem exists_extendTargets {targets : List TensorRef} (hp : p.Proper s.mesh)
    (hv : AllValid s.mesh towards) (ha : Apart s.mesh towards) (hsource : source ∈ p.refs)
    (htargets : targets ⊆ p.refs) :
    ∃ q updates, s.extendTargets r k towards source p targets = .ok (q, updates) ∧
      Advances s.mesh p q updates := by
  induction targets generalizing p with
  | nil => exact ⟨p, [], rfl, .refl hp⟩
  | cons t rest ih =>
    rw [List.cons_subset] at htargets
    obtain ⟨more, hmore, htakes⟩ := exists_extension (r := r) (k := k) (t := t) hp hv ha
    cases more with
    | nil =>
      obtain ⟨q, updates, hlast, hadvances⟩ := ih hp hsource htargets.2
      exact ⟨q, updates, by rw [extendTargets_cons_of_nil hmore, hlast], hadvances⟩
    | cons a more =>
      have hnext := (htakes.resolve_left (by simp)).setAxes hp
      have hrefs := Projection.refs_setAxes p t k (axesOf p t k ++ a :: more)
      obtain ⟨q, updates, hlast, hadvances⟩ :=
        ih hnext (hrefs.symm ▸ hsource) (hrefs.symm ▸ htargets.2)
      refine ⟨q, ⟨k, t, source⟩ :: updates, ?_, ?_⟩
      · rw [extendTargets, hmore]
        simp only [bind, Except.bind, hlast]
        rfl
      · have hstep : Advances s.mesh p (p.setAxes t k (axesOf p t k ++ a :: more))
            [⟨k, t, source⟩] := ⟨hnext, hrefs, by simp [htargets.1, hsource]⟩
        exact hstep.trans hadvances

theorem mem_sources {t : TensorRef} {axes : List AxisRef} (h : (t, axes) ∈ sources p d k) :
    t ∈ p.refs ∧ ∃ f, p.factor? t k = some f ∧ f.axes = axes := by
  obtain ⟨t', ht', h⟩ := List.mem_filterMap.1 h
  cases hf : p.factor? t' k with
  | none => simp [hf] at h
  | some f =>
    simp only [hf] at h
    split at h
    · cases h
    · cases h
      exact ⟨(List.mem_filter.1 ht').1, f, hf, rfl⟩

/-- The axes of each source are valid and apart. -/
theorem valid_and_apart_of_mem_sources {m : Mesh} (hp : p.Proper m) {t : TensorRef}
    {axes : List AxisRef} (h : (t, axes) ∈ sources p d k) : AllValid m axes ∧ Apart m axes := by
  obtain ⟨-, f, hf, rfl⟩ := mem_sources h
  obtain ⟨tensor, htensor, hf⟩ := Option.bind_eq_some_iff.1 hf
  have hproper := hp t tensor htensor
  have hperm := (TensorFactors.perm_claims hproper.keys hf).symm
  exact ⟨(allValid_append.1 (hproper.valid.perm hperm)).1,
    (hproper.apart.perm hperm).sublist (List.sublist_append_left ..)⟩

/-- So is the candidate, whatever the policy picks, and it covers no more than its source. -/
theorem candidate_spec (hp : p.Proper s.mesh)
    (h : s.candidate (sources p d k) = some (towards, source)) :
    source ∈ p.refs ∧ AllValid s.mesh towards ∧ Apart s.mesh towards ∧
      ∀ name c, coverage s.mesh name c towards ≤ coverage s.mesh name c (axesOf p source k) := by
  obtain ⟨axes, hmem, hvalid, hle⟩ : ∃ axes, (source, axes) ∈ sources p d k ∧
      AllValid s.mesh towards ∧
      ∀ name c, coverage s.mesh name c towards ≤ coverage s.mesh name c axes := by
    unfold candidate at h
    split at h
    · cases h
    · rename_i _ axes rest _ hsources
      dsimp only at h
      split at h
      · cases h
      · cases h
        have hmem : ∀ x ∈ (source, axes) :: rest, x ∈ sources p d k := fun x hx => hsources ▸ hx
        have hrest : ∀ l ∈ rest.map (·.2), AllValid s.mesh l := by
          intro l hl
          obtain ⟨x, hx, rfl⟩ := List.mem_map.1 hl
          exact (valid_and_apart_of_mem_sources hp (hmem x (List.mem_cons_of_mem _ hx))).1
        obtain ⟨hv, -⟩ := valid_and_apart_of_mem_sources hp (hmem _ List.mem_cons_self)
        exact ⟨axes, hmem _ List.mem_cons_self, commonPrefixOfAll_spec hv hrest⟩
    · obtain ⟨index, -, h⟩ := Option.bind_eq_some_iff.1 h
      obtain ⟨⟨t, axes⟩, hpicked, h⟩ := Option.bind_eq_some_iff.1 h
      cases h
      have hmem := List.mem_of_getElem? hpicked
      exact ⟨_, hmem, (valid_and_apart_of_mem_sources hp hmem).1, fun _ _ => Nat.le_refl _⟩
  obtain ⟨hsource, f, hf, rfl⟩ := mem_sources hmem
  have haxes : axesOf p source k = f.axes := by simp [axesOf, hf]
  obtain ⟨-, hapart⟩ := valid_and_apart_of_mem_sources hp hmem
  exact ⟨hsource, hvalid, fun name c => Nat.le_trans (hle name c) (hapart name c),
    fun name c => haxes ▸ hle name c⟩

theorem exists_propagateFactor (hp : p.Proper s.mesh) (k : Nat) :
    ∃ q updates, s.propagateFactor r d p k = .ok (q, updates) ∧
      Advances s.mesh p q updates := by
  unfold propagateFactor
  split
  · cases hcandidate : s.candidate (sources p d k) with
    | none => exact ⟨p, [], rfl, .refl hp⟩
    | some candidate =>
      obtain ⟨towards, source⟩ := candidate
      obtain ⟨hsource, hv, ha, -⟩ := candidate_spec hp hcandidate
      exact exists_extendTargets hp hv ha hsource (List.filter_subset_self _)
  · exact ⟨p, [], rfl, .refl hp⟩

theorem exists_propagateFactors (hp : p.Proper s.mesh) (factors : List Nat) :
    ∃ q updates, s.propagateFactors r d p factors = .ok (q, updates) ∧
      Advances s.mesh p q updates := by
  induction factors generalizing p with
  | nil => exact ⟨p, [], rfl, .refl hp⟩
  | cons k rest ih =>
    obtain ⟨q, updates, hq, hfirst⟩ := exists_propagateFactor (r := r) (d := d) hp k
    obtain ⟨q', updates', hq', hrest⟩ := ih hfirst.proper
    refine ⟨q', updates ++ updates', ?_, hfirst.trans hrest⟩
    simp only [propagateFactors, hq, hq', bind, Except.bind]
    rfl

/-- The factors of an operation can be propagated, and no tensor claims a place of an axis
twice behind it. -/
theorem exists_propagate (hp : p.Proper s.mesh) :
    ∃ q updates, s.propagate r d p = .ok (q, updates) ∧ Advances s.mesh p q updates :=
  exists_propagateFactors hp _

end targets

end FactorStep
end MeshSharding
