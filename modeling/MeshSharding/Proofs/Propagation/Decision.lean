import MeshSharding.Proofs.Program.Linked
import MeshSharding.Proofs.Propagation.FactorStep
import MeshSharding.Proofs.Propagation.Worklist
import MeshSharding.Proofs.Rule.Verify

/-! What operations decide. Over valid shardings, an operation whose rule verifies reaches a
decision, and the axes of each of its updates are valid and apart. -/
namespace MeshSharding

open AxisList

/-- The rules of the operations verify for the shapes of their values. -/
def Program.RulesVerify (p : Program) : Prop :=
  ∀ o ∈ p.operations, ∀ rule, o.rule = some rule → rule.verify (p.signatureOf o) = .ok ()

theorem Program.rulesVerify_single (m : Mesh) {operands : List (Shape × Option TensorSharding)}
    (name : String) {r : Rule} {shape : Shape} (result : Option TensorSharding)
    (h : r.verify ⟨operands.map (·.1), [shape]⟩ = .ok ()) :
    (single m operands name r shape result).RulesVerify := by
  intro o ho rule hrule
  rw [signatureOf_single m operands name r shape result o ho]
  cases List.mem_singleton.1 ho
  cases hrule
  exact h

namespace Projection

variable {m : Mesh} {r : Rule} {p : Projection} {sig : Signature}
  {shardings : List (Option TensorSharding)} {ts : List TensorFactors}

theorem length_projectAll {mappings : List Mapping}
    (h : projectAll m r mappings shardings = .ok ts) : ts.length = mappings.length := by
  induction mappings generalizing shardings ts with
  | nil => cases h; rfl
  | cons mapping mappings ih =>
    obtain ⟨first, -, h⟩ := bind_eq_ok_iff.1 h
    obtain ⟨rest, hrest, h⟩ := bind_eq_ok_iff.1 h
    cases h
    rw [List.length_cons, List.length_cons, ih hrest]

/-- Valid shardings are projected onto a rule that verifies. -/
theorem exists_projectAll_of_verify (side : Side) (hr : r.verify sig = .ok ())
    (hs : ∀ x ∈ shardings, ∀ s ∈ x, s.Valid m) :
    ∃ ts, projectAll m r (r.mappings side) shardings = .ok ts ∧
      ts.length = (sig.shapes side).length ∧
      ∀ (i : Nat) (t : TensorFactors), ts[i]? = some t → t.Proper m := by
  obtain ⟨hlen, hmaps⟩ := Rule.maps_of_verify hr side
  have hmap : ∀ (i : Nat) (mapping : Mapping), (r.mappings side)[i]? = some mapping →
      ∃ shape, r.Maps mapping shape := fun i mapping hi => by
    have hlt := (List.getElem?_eq_some_iff.1 hi).1
    exact ⟨_, hmaps i mapping _ hi (List.getElem?_eq_getElem (hlen ▸ hlt))⟩
  have hvalid : ∀ (i : Nat), ∀ s ∈ shardings[i]?.getD none, s.Valid m := fun i x hx => by
    cases hi : shardings[i]? with
    | none =>
      rw [hi] at hx
      cases hx
    | some y =>
      rw [hi] at hx
      exact hs y (List.mem_of_getElem? hi) x hx
  obtain ⟨ts, hts⟩ : ∃ ts, projectAll m r (r.mappings side) shardings = .ok ts :=
    exists_projectAll fun i mapping hi => by
      obtain ⟨shape, hmaps⟩ := hmap i mapping hi
      exact TensorFactors.exists_project (fun s hs => (hvalid i s hs).allValid_dims) hmaps.known
  refine ⟨ts, hts, (length_projectAll hts).trans hlen, fun i t ht => ?_⟩
  obtain ⟨mapping, hi, hproject⟩ := (projectAll_eq_ok hts).1 ht
  obtain ⟨shape, hmaps⟩ := hmap i mapping hi
  exact TensorFactors.proper_project (hvalid i) hmaps.nodup hproject

/-- The projection of the operands and results claims no place of an axis twice. -/
theorem exists_ofShardings (hr : r.verify sig = .ok ())
    {operands results : List (Option TensorSharding)}
    (hs : ∀ s, some s ∈ operands ++ results → s.Valid m) :
    ∃ p, ofShardings m r operands results = .ok p ∧ p.Proper m ∧
      ∀ side, (p.tensors side).length = (sig.shapes side).length := by
  obtain ⟨os, hos, holen, hoproper⟩ := exists_projectAll_of_verify .operand hr
    fun x hx s hs' => hs s (List.mem_append_left _ (Option.mem_def.1 hs' ▸ hx))
  obtain ⟨rs, hrs, hrlen, hrproper⟩ := exists_projectAll_of_verify .result hr
    fun x hx s hs' => hs s (List.mem_append_right _ (Option.mem_def.1 hs' ▸ hx))
  have hos : projectAll m r r.operands operands = .ok os := hos
  have hrs : projectAll m r r.results results = .ok rs := hrs
  refine ⟨⟨os, rs⟩, ?_, ?_, ?_⟩
  · simp only [ofShardings, hos, hrs, bind, Except.bind]
    rfl
  · rintro ⟨side, i⟩ tensor htensor
    cases side with
    | operand => exact hoproper i tensor htensor
    | result => exact hrproper i tensor htensor
  · intro side
    cases side with
    | operand => exact holen
    | result => exact hrlen

theorem mem_refs {t : TensorRef} : t ∈ p.refs ↔ t.index < (p.tensors t.side).length := by
  obtain ⟨side, i⟩ := t
  cases side <;> simp [refs, tensors]

end Projection

namespace Propagator

variable {g : Propagator} {m : Mesh} {o : Operation} {r : Rule} {p : Projection}

theorem exists_valueAt {t : TensorRef} (h : t.index < (o.values t.side).length) :
    ∃ v, o.valueAt t = .ok v := by
  unfold Operation.valueAt
  rw [List.getElem?_eq_getElem h]
  exact ⟨_, rfl⟩

/-- The updates of proper tensors have axes that are valid and apart. -/
theorem exists_updatesOf {sig : Signature} (hr : r.verify sig = .ok ()) (hp : p.Proper m)
    (hvalues : ∀ t ∈ p.refs, ∃ v, o.valueAt t = .ok v) {changed : List FactorUpdate}
    (hchanged : ∀ u ∈ changed, u.target ∈ p.refs ∧ u.source ∈ p.refs)
    (seen : List (TensorRef × Nat)) :
    ∃ updates, updatesOf m o r p seen changed = .ok updates ∧
      ∀ u ∈ updates, AllValid m u.axes ∧ Apart m u.axes := by
  induction changed generalizing seen with
  | nil => exact ⟨[], rfl, nofun⟩
  | cons u rest ih =>
    rw [List.forall_mem_cons] at hchanged
    by_cases hdrops : Drops r seen u
    · rw [updatesOf_cons_of_drops hdrops]
      exact ih hchanged.2 seen
    · simp only [Drops, not_forall] at hdrops
      obtain ⟨mapping, dim, hplace, hseen⟩ := hdrops
      obtain ⟨value, hvalue⟩ := hvalues _ hchanged.1.1
      obtain ⟨source, hsource⟩ := hvalues _ hchanged.1.2
      obtain ⟨more, hmore, hvalid⟩ := ih hchanged.2 ((u.target, dim) :: seen)
      simp only [updatesOf_cons_of_place hplace hseen, hvalue, hsource, hmore, bind, Except.bind]
      refine ⟨_, rfl, List.forall_mem_cons.2 ⟨?_, hvalid⟩⟩
      obtain ⟨tensor, htensor⟩ :=
        Option.isSome_iff_exists.1 (Projection.tensor?_isSome hchanged.1.1)
      obtain ⟨mapping', hmapping, hat⟩ := Option.bind_eq_some_iff.1 hplace
      obtain ⟨_, -, heq⟩ := Option.map_eq_some_iff.1 hat
      obtain rfl : mapping' = mapping := congrArg Prod.fst heq
      obtain ⟨hlen, hmaps⟩ := Rule.maps_of_verify hr u.target.side
      have hlt := (List.getElem?_eq_some_iff.1 hmapping).1
      have hnodup :=
        (hmaps _ _ _ hmapping (List.getElem?_eq_getElem (hlen ▸ hlt))).nodup
      simpa [htensor] using (hp _ tensor htensor).dimAxes hnodup dim

/-- All shardings are over the common mesh, and there is one. -/
theorem commonMesh_eq_some {shardings : List (Option TensorSharding)} {name : String}
    (h : commonMesh shardings = some name) :
    (∃ s, some s ∈ shardings) ∧ ∀ s, some s ∈ shardings → s.meshName = name := by
  have hmem : ∀ s, some s ∈ shardings ↔ s ∈ shardings.filterMap id := by simp
  unfold commonMesh at h
  simp only [hmem]
  split at h
  · cases h
  · rename_i s rest heq
    rw [heq]
    split at h
    · rename_i hall
      cases h
      refine ⟨⟨s, List.mem_cons_self⟩, fun t ht => ?_⟩
      rcases List.mem_cons.1 ht with rfl | ht
      · rfl
      · simpa using List.all_eq_true.1 hall t ht
    · cases h

/-- The mesh is the one of that name, and the axes of the updates are valid and apart. -/
structure Decision.Safe (p : Program) (d : Decision) : Prop where
  mesh : p.mesh d.meshName = .ok d.mesh
  axes : ∀ u ∈ d.updates, AllValid d.mesh u.axes ∧ Apart d.mesh u.axes

/-- Over a table of valid shardings, the common mesh is a mesh of the program, and the
shardings are valid over it. -/
theorem exists_mesh {t : ShardingTable} (ht : t.Sound g.program) {values : List Nat}
    {name : String} (h : commonMesh (values.map t.get) = some name) :
    ∃ m, g.program.mesh name = .ok m ∧ ∀ s, some s ∈ values.map t.get → s.Valid m := by
  obtain ⟨⟨s, hs⟩, hall⟩ := commonMesh_eq_some h
  have hget : ∀ s, some s ∈ values.map t.get →
      ∃ m, g.program.mesh name = .ok m ∧ s.Valid m := fun s hs => by
    obtain ⟨v, -, hv⟩ := List.mem_map.1 hs
    obtain ⟨m, hm, hvalid⟩ := ht.valid v s hv
    exact ⟨m, hall s hs ▸ hm, (TensorSharding.validate_eq_ok_iff.1 hvalid).2⟩
  obtain ⟨m, hm, -⟩ := hget s hs
  refine ⟨m, hm, fun s hs => ?_⟩
  obtain ⟨m', hm', hvalid⟩ := hget s hs
  cases hm.symm.trans hm'
  exact hvalid

/-- Over a table of valid shardings an operation reaches a safe decision. -/
theorem exists_decide {t : ShardingTable} (ht : t.Sound g.program)
    (hr : r.verify (g.program.signatureOf o) = .ok ()) (d : Direction) :
    ∃ decision, g.decide o r d t = .ok decision ∧ ∀ x ∈ decision, x.Safe g.program := by
  unfold decide
  dsimp only
  cases hname : commonMesh (o.operands.map t.get ++ o.results.map t.get) with
  | none => exact ⟨none, rfl, nofun⟩
  | some name =>
    rw [← List.map_append] at hname
    obtain ⟨m, hm, hvalid⟩ := exists_mesh ht hname
    rw [List.map_append] at hvalid
    obtain ⟨p, hproject, hp, hlen⟩ := Projection.exists_ofShardings hr hvalid
    obtain ⟨q, changed, hq, hadvances⟩ :=
      FactorStep.exists_propagate (s := g.factorStep m) (r := r) (d := d) hp
    have hvalues : ∀ t ∈ q.refs, ∃ v, o.valueAt t = .ok v := by
      rw [hadvances.refs]
      intro t ht
      have hlt := Projection.mem_refs.1 ht
      rw [hlen] at hlt
      refine exists_valueAt ?_
      cases hside : t.side <;>
        simpa [hside, Program.signatureOf, Signature.shapes, Operation.values] using hlt
    obtain ⟨updates, hupdates, haxes⟩ := exists_updatesOf hr hadvances.proper hvalues
      (fun u hu => hadvances.refs.symm ▸ hadvances.updates u hu) []
    refine ⟨some ⟨name, m, updates⟩, ?_, ?_⟩
    · simp only [hm, hproject, hq, bind, Except.bind]
      rw [show updatesOf m o r q [] changed = .ok updates from hupdates]
      rfl
    · rintro _ ⟨⟩
      exact ⟨hm, haxes⟩

theorem safe_of_decide {t : ShardingTable} (ht : t.Sound g.program)
    (hr : r.verify (g.program.signatureOf o) = .ok ()) {d : Direction} {decision : Decision}
    (h : g.decide o r d t = .ok (some decision)) : decision.Safe g.program := by
  obtain ⟨decision', hdecide, hsafe⟩ := exists_decide ht hr d
  cases h.symm.trans hdecide
  exact hsafe decision rfl

/-- Updates of a safe decision, in whatever order, keep the table valid. -/
theorem sound_foldl_applyUpdate {operation : Nat} {d : Decision} (hd : d.Safe g.program)
    {updates : List ShardingUpdate} (hsub : updates ⊆ d.updates) {s : State}
    (hs : s.table.Sound g.program) :
    (updates.foldl (g.applyUpdate operation d) s).table.Sound g.program := by
  induction updates generalizing s with
  | nil => exact hs
  | cons u rest ih =>
    rw [List.cons_subset] at hsub
    refine ih hsub.2 ?_
    obtain ⟨hv, ha⟩ := hd.axes u hsub.1
    rcases applyUpdate_cases g operation d s u with ⟨-, h⟩ | ⟨t, hrefine, htable, -, -⟩
    · rw [h]
      exact hs
    · rw [htable]
      exact hs.refine hd.mesh hv ha hrefine

end Propagator
end MeshSharding
