import MeshSharding.Proofs.Propagation.Decision
import MeshSharding.Proofs.Propagation.Legibility

/-! Reading back what propagation has found. The dimensions of every tensor are put together from
its factors; when they are dealt out again each factor gets the axes that it had. -/
namespace MeshSharding

open AxisList TensorSharding

namespace TensorFactors

variable {m : Mesh} {r : Rule} {mapping : Mapping} {s : TensorSharding} {x : TensorFactors}
  {i : Nat} {fs : List Nat} {changed : Nat → Prop} {shape : Shape}

/-- The sharding with the dimensions that are put together from the factors. -/
def written (x : TensorFactors) (m : Mesh) (mapping : Mapping) (s : TensorSharding) :
    TensorSharding :=
  { s with dims := s.dims.mapIdx fun i d => { d with axes := x.dimAxes m mapping i } }

theorem dimOf_written (hi : i < s.rank) :
    (dimOf (some (x.written m mapping s)) i).axes = x.dimAxes m mapping i := by
  have hd : s.dims[i]? = some s.dims[i] := List.getElem?_eq_getElem hi
  simp [dimOf, written, hd]

theorem dims_written (hrank : mapping.dims.length = s.dims.length) :
    (x.written m mapping s).dims.map (·.axes)
      = mapping.dims.map fun fs => mergeAdjacent m (x.joined fs) := by
  refine List.ext_getElem (by simp [written, hrank]) fun i _ hi => ?_
  rw [List.length_map] at hi
  simp only [written, List.getElem_map, List.getElem_mapIdx, dimAxes_eq,
    Mapping.factorsOf_eq (List.getElem?_eq_getElem hi)]
  rfl

/-- It is valid, since the factors claim no place twice. -/
theorem valid_written (h : x.Lengthens m mapping (some s) changed) (hr : r.Maps mapping shape)
    (hs : s.Valid m) (hrank : s.rank = shape.length) : (x.written m mapping s).Valid m := by
  have hused : (x.written m mapping s).usedAxes
      = (mapping.dims.flatMap fun fs => mergeAdjacent m (x.joined fs))
        ++ s.replicated ++ s.unreduced := by
    rw [usedAxes, TensorSharding.dimAxes, List.flatMap_def,
      dims_written (hr.rank.trans hrank.symm), List.flatMap_def]
    rfl
  have hvalid : AllValid m (mapping.dims.flatMap x.joined) := by
    intro a ha
    obtain ⟨fs, -, ha⟩ := List.mem_flatMap.1 ha
    exact h.proper.allValid_joined fs a ha
  have hmerged : AllValid m (mapping.dims.flatMap fun fs => mergeAdjacent m (x.joined fs)) := by
    intro a ha
    obtain ⟨fs, -, ha⟩ := List.mem_flatMap.1 ha
    exact (h.proper.allValid_joined fs).mergeAdjacent a ha
  have hjoin : mergeAdjacent m (mapping.dims.flatMap fun fs => mergeAdjacent m (x.joined fs))
      = mergeAdjacent m (mapping.dims.flatMap x.joined) :=
    mergeAdjacent_flatMap_congr fun fs _ => mergeAdjacent_mergeAdjacent (x.joined fs)
  obtain ⟨hreplicated, hunreduced⟩ := hs.allValid_extra
  rw [TensorSharding.Valid, hused]
  refine ⟨?_, fun name c => ?_⟩
  · exact allValid_append.2 ⟨allValid_append.2 ⟨hmerged, hreplicated⟩, hunreduced⟩
  · have hle := coverage_flatMap_joined_le (x := x) (m := m) hr.nodup name c
    have hapart := h.proper.apart name c
    rw [← coverage_mergeAdjacent hvalid, ← hjoin, coverage_mergeAdjacent hmerged] at hle
    simp only [claims, coverage_append, h.replicated, h.unreduced, Option.map_some,
      Option.getD_some] at hapart
    simp only [coverage_append]
    omega

/-- The factors that have been written to the dimensions are read from them. -/
theorem Legible.same_project {y : TensorFactors} (h : x.Legible m r mapping)
    (hl : x.Lengthens m mapping (some s) changed) (hr : r.Maps mapping shape) (hs : s.Valid m)
    (hrank : s.rank = shape.length)
    (hy : project m r mapping (some (x.written m mapping s)) = .ok y) (k : Nat) :
    Option.Rel (fun f g => (Portion.ofFactor f).Same m (.ofFactor g)) (x.factor? k)
      (y.factor? k) := by
  have hvalid : ∀ z ∈ some (x.written m mapping s), z.Valid m := by
    rintro _ ⟨⟩
    exact valid_written hl hr hs hrank
  by_cases hk : k ∈ mapping.dims.flatten
  · obtain ⟨i, fs, hfs, hk⟩ := exists_mem_dims hk
    obtain ⟨f, hf, -⟩ := hl.factors i fs k hfs hk
    obtain ⟨part, hpart, hkeys, hall⟩ := exists_part hvalid hr.nodup hy hfs
    have hi : i < s.rank := by
      rw [hrank, ← hr.rank]
      exact (List.getElem?_eq_some_iff.1 hfs).1
    rw [dimOf_written hi] at hpart
    have haxes : x.dimAxes m mapping i
        = mergeAdjacent m (fs.flatMap fun j => (x.portion j).all) := by
      rw [dimAxes_eq, Mapping.factorsOf_eq hfs]
      simp only [all_portion]
    have hsame := (same_dealOut_iff (fun j _ => hl.proper.allValid_portion j) haxes hpart).2
      (h.filled fs (List.mem_of_getElem? hfs))
    obtain ⟨⟨k, g⟩, he, rfl⟩ := List.mem_map.1 (hkeys ▸ hk)
    have hsame := hsame _ he
    rw [portion_eq hf] at hsame
    rw [hf, hall _ he]
    exact .some hsame
  · have hx : x.factor? k = none := by
      rw [← Option.not_isSome_iff_eq_none]
      exact mt (h.mapped k) hk
    rw [hx, factor?_project_eq_none (fun z hz => (hvalid z hz).allValid_dims) hr.nodup hy hk]
    exact .none

end TensorFactors

namespace Projection

variable {m : Mesh} {r : Rule} {sig : Signature} {p : Projection} {t : TensorRef}
  {shardings : Side → List (Option TensorSharding)}

/-- The shardings with the dimensions that are put together from the factors. A tensor that has
none gets one over the mesh of the given name. -/
def written (p : Projection) (m : Mesh) (r : Rule) (name : String)
    (shardings : Side → List (Option TensorSharding)) (side : Side) :
    List (Option TensorSharding) :=
  (p.tensors side).mapIdx fun i x => (r.mapping? ⟨side, i⟩).map fun mapping =>
    x.written m mapping
      ((shardingAt shardings ⟨side, i⟩).getD (.fullyOpen name mapping.rank))

theorem shardingAt_written (name : String) : shardingAt (p.written m r name shardings) t
    = (p.tensor? t).bind fun x => (r.mapping? t).map fun mapping =>
      x.written m mapping ((shardingAt shardings t).getD (.fullyOpen name mapping.rank)) := by
  rw [shardingAt, written, List.getElem?_mapIdx, tensor?]
  cases (p.tensors t.side)[t.index]? <;> rfl

/-- Valid shardings are projected onto a rule that verifies. -/
theorem exists_ofShardings_of_valid (hr : r.verify sig = .ok ())
    (hs : ∀ t, ∀ x ∈ shardingAt shardings t, x.Valid m) :
    ∃ p, ofShardings m r (shardings .operand) (shardings .result) = .ok p ∧ p.Proper m := by
  have hmem : ∀ side x, some x ∈ shardings side → x.Valid m := by
    intro side x hx
    obtain ⟨i, hi⟩ := List.getElem?_of_mem hx
    refine hs ⟨side, i⟩ x ?_
    rw [shardingAt, hi]
    rfl
  obtain ⟨p, hp, hproper, -⟩ := exists_ofShardings hr fun x hx =>
    (List.mem_append.1 hx).elim (hmem .operand x) (hmem .result x)
  exact ⟨p, hp, hproper⟩

/-- There is a tensor for every mapping. -/
theorem tensor?_isSome_iff
    (h : ofShardings m r (shardings .operand) (shardings .result) = .ok p) :
    (p.tensor? t).isSome ↔ (r.mapping? t).isSome := by
  obtain ⟨os, hos, h⟩ := bind_eq_ok_iff.1 h
  obtain ⟨rs, hrs, h⟩ := bind_eq_ok_iff.1 h
  cases h
  obtain ⟨side, i⟩ := t
  cases side <;>
    simp [tensor?, tensors, Rule.mapping?, Rule.mappings, length_projectAll hos,
      length_projectAll hrs]

theorem tensor?_isSome_congr {q : Projection} (h : q.refs = p.refs) :
    (q.tensor? t).isSome ↔ (p.tensor? t).isSome := by
  have hrefs : ∀ p : Projection, (p.tensor? t).isSome ↔ t ∈ p.refs := fun p => by
    rw [mem_refs, tensor?]
    simp
  rw [hrefs, hrefs, h]

/-- Each sharding is valid for the shape of its tensor. -/
def Fit (m : Mesh) (sig : Signature) (shardings : Side → List (Option TensorSharding)) : Prop :=
  ∀ t, ∀ x ∈ shardingAt shardings t, ∃ shape,
    (sig.shapes t.side)[t.index]? = some shape ∧ x.validate m shape = .ok ()

theorem Fit.valid (h : Fit m sig shardings) : ∀ t, ∀ x ∈ shardingAt shardings t, x.Valid m := by
  intro t x hx
  obtain ⟨shape, -, hx⟩ := h t x hx
  exact (validate_eq_ok_iff.1 hx).2

/-- So is the one that stands for it where there is none. -/
theorem Fit.valid_getD (h : Fit m sig shardings) {shape : Shape}
    (hshape : (sig.shapes t.side)[t.index]? = some shape) (name : String) :
    ((shardingAt shardings t).getD (.fullyOpen name shape.length)).rank = shape.length ∧
      ((shardingAt shardings t).getD (.fullyOpen name shape.length)).Valid m := by
  cases hx : shardingAt shardings t with
  | none => exact ⟨by simp, valid_fullyOpen ..⟩
  | some x =>
    obtain ⟨_, hshape', hx⟩ := h t x hx
    cases hshape.symm.trans hshape'
    exact validate_eq_ok_iff.1 hx

end Projection

namespace FactorStep

variable {m : Mesh} {s : FactorStep} {r : Rule} {sig : Signature} {q q' : Projection}
  {us : List FactorUpdate} {t : TensorRef} {shardings : Side → List (Option TensorSharding)}

/-- What stands for the sharding of a tensor is valid, and lengthened by its factors. -/
theorem Lengthens.exists_getD (h : Lengthens m r (Projection.shardingAt shardings) us q)
    (hr : r.verify sig = .ok ()) (hs : Projection.Fit m sig shardings) (name : String)
    {x : TensorFactors} {mapping : Mapping} (hx : q.tensor? t = some x)
    (hmapping : r.mapping? t = some mapping) :
    ∃ y shape changed, (Projection.shardingAt shardings t).getD (.fullyOpen name mapping.rank) = y ∧
      r.Maps mapping shape ∧ x.Lengthens m mapping (some y) changed ∧ y.Valid m ∧
      y.rank = shape.length := by
  obtain ⟨shape, hshape, hmaps⟩ := Rule.exists_maps_of_verify hr hmapping
  obtain ⟨hrank, hvalid⟩ := hs.valid_getD hshape name
  rw [← hmaps.rank] at hrank hvalid
  exact ⟨_, shape, _, rfl, hmaps, (h.tensors t x mapping hx hmapping).getD name mapping.rank,
    hvalid, hrank.trans hmaps.rank⟩

/-- The shardings that are written are valid. -/
theorem Lengthens.valid_written (h : Lengthens m r (Projection.shardingAt shardings) us q)
    (hr : r.verify sig = .ok ()) (hs : Projection.Fit m sig shardings) (name : String) :
    ∀ t, ∀ z ∈ Projection.shardingAt (q.written m r name shardings) t, z.Valid m := by
  intro t z hz
  rw [Projection.shardingAt_written] at hz
  obtain ⟨x, hx, hz⟩ := Option.bind_eq_some_iff.1 hz
  obtain ⟨mapping, hmapping, rfl⟩ := Option.map_eq_some_iff.1 hz
  obtain ⟨_, _, _, rfl, hmaps, hlengthens, hvalid, hrank⟩ := h.exists_getD hr hs name hx hmapping
  exact TensorFactors.valid_written hlengthens hmaps hvalid hrank

/-- From what is written the factors of all tensors are read. -/
theorem Lengthens.same_written (h : Lengthens m r (Projection.shardingAt shardings) us q)
    (hl : q.Legible m r) (hr : r.verify sig = .ok ()) (hs : Projection.Fit m sig shardings)
    (hrefs : ∀ t, (q.tensor? t).isSome ↔ (r.mapping? t).isSome) {name : String}
    (hq' : Projection.ofShardings m r (q.written m r name shardings .operand)
      (q.written m r name shardings .result) = .ok q') (t : TensorRef) (k : Nat) :
    Option.Rel (fun f g => (Portion.ofFactor f).Same m (.ofFactor g)) (q.factor? t k)
      (q'.factor? t k) := by
  have hsome : (q'.tensor? t).isSome ↔ (q.tensor? t).isSome :=
    (Projection.tensor?_isSome_iff hq').trans (hrefs t).symm
  unfold Projection.factor?
  cases hx : q.tensor? t with
  | none =>
    have hnone : q'.tensor? t = none := by
      rw [hx] at hsome
      simpa using hsome
    rw [hnone]
    exact .none
  | some x =>
    obtain ⟨y, hy⟩ := Option.isSome_iff_exists.1 (hsome.2 (by simp [hx]))
    obtain ⟨mapping, hmapping, hproject⟩ := (Projection.tensor?_eq_some_iff hq').1 hy
    obtain ⟨_, _, _, rfl, hmaps, hlengthens, hvalid, hrank⟩ :=
      h.exists_getD hr hs name hx hmapping
    rw [Projection.shardingAt_written, hx, hmapping] at hproject
    rw [hy]
    exact (hl t x mapping hx hmapping).same_project hlengthens hmaps hvalid hrank hproject k

/-- What propagation has found for the factors of merged shardings is read from their dimensions
once it has been written to them. -/
theorem same_written_of_propagate (hm : s.mesh.NoUnitAxes) (hr : r.verify sig = .ok ())
    (hsizes : ∀ f ∈ r.factors, 0 < f.size) (hs : Projection.Fit s.mesh sig shardings)
    (hmerged : ∀ t, ∀ x ∈ Projection.shardingAt shardings t, x.MergedDims s.mesh) (d : Direction)
    (name : String) : ∃ p q us q',
      Projection.ofShardings s.mesh r (shardings .operand) (shardings .result) = .ok p ∧
      s.propagate r d p = .ok (q, us) ∧
      Projection.ofShardings s.mesh r (q.written s.mesh r name shardings .operand)
        (q.written s.mesh r name shardings .result) = .ok q' ∧
      ∀ t k, Option.Rel (fun f g => (Portion.ofFactor f).Same s.mesh (.ofFactor g))
        (q.factor? t k) (q'.factor? t k) := by
  have hnodup : ∀ t mapping, r.mapping? t = some mapping → mapping.dims.flatten.Nodup :=
    fun t mapping hmapping => (Rule.exists_maps_of_verify hr hmapping).choose_spec.2.nodup
  obtain ⟨p, hp, hproper⟩ := Projection.exists_ofShardings_of_valid hr hs.valid
  obtain ⟨q, us, hq, hadvances⟩ := exists_propagate (s := s) (r := r) (d := d) hproper
  have hstart := lengthens_ofShardings hr hs.valid hp
  obtain ⟨hlengthens, -⟩ := lengthens_propagate hnodup hstart hq
  have hlegible : q.Legible s.mesh r :=
    legible_propagate hm hnodup hsizes hstart (legible_ofShardings hr hs.valid hmerged hp) hq
  have hrefs : ∀ t, (q.tensor? t).isSome ↔ (r.mapping? t).isSome := fun t => by
    rw [Projection.tensor?_isSome_congr hadvances.refs, Projection.tensor?_isSome_iff hp]
  obtain ⟨q', hq', -⟩ :=
    Projection.exists_ofShardings_of_valid hr (hlengthens.valid_written hr hs name)
  exact ⟨p, q, us, q', hp, hq, hq', hlengthens.same_written hlegible hr hs hrefs hq'⟩

/-- The operand has a factor cut within its axis, and the result takes both parts. -/
theorem same_written_of_propagate_grid :
    let s : FactorStep := ⟨.grid 4 2 (by decide) (by decide), .basic, Policy.largest, false⟩
    let r := Rule.ofSizes [2, 6] [⟨[[0, 1]]⟩] [⟨[[0], [1]]⟩]
    let sig : Signature := ⟨[[12]], [[2, 6]]⟩
    let shardings : Side → List (Option TensorSharding)
      | .operand => [some (ofDims "mesh" [.ofAxes [.full "x", .full "y"] false])]
      | .result => [none]
    s.mesh.NoUnitAxes ∧ r.verify sig = .ok () ∧ (∀ f ∈ r.factors, 0 < f.size) ∧
      Projection.Fit s.mesh sig shardings ∧
      (∀ t, ∀ x ∈ Projection.shardingAt shardings t, x.MergedDims s.mesh) ∧
      ∃ p q us q',
        Projection.ofShardings s.mesh r (shardings .operand) (shardings .result) = .ok p ∧
        s.propagate r .both p = .ok (q, us) ∧
        Projection.ofShardings s.mesh r (q.written s.mesh r "mesh" shardings .operand)
          (q.written s.mesh r "mesh" shardings .result) = .ok q' ∧
        ∀ t k, Option.Rel (fun f g => (Portion.ofFactor f).Same s.mesh (.ofFactor g))
          (q.factor? t k) (q'.factor? t k) := by
  intro s r sig shardings
  have hm : s.mesh.NoUnitAxes := by
    unfold Mesh.NoUnitAxes
    decide
  have hr : r.verify sig = .ok () := by decide
  have hsizes : ∀ f ∈ r.factors, 0 < f.size := by decide
  have hcases : ∀ t x, Projection.shardingAt shardings t = some x →
      t = ⟨.operand, 0⟩ ∧ x = ofDims "mesh" [.ofAxes [.full "x", .full "y"] false] := by
    rintro ⟨side, i⟩ x hx
    cases side <;> rcases i with _ | i <;> cases hx
    exact ⟨rfl, rfl⟩
  have hs : Projection.Fit s.mesh sig shardings := by
    intro t x hx
    obtain ⟨rfl, rfl⟩ := hcases t x hx
    exact ⟨[12], rfl, by decide⟩
  have hmerged : ∀ t, ∀ x ∈ Projection.shardingAt shardings t, x.MergedDims s.mesh := by
    intro t x hx
    obtain ⟨rfl, rfl⟩ := hcases t x hx
    unfold MergedDims
    decide
  exact ⟨hm, hr, hsizes, hs, hmerged,
    same_written_of_propagate hm hr hsizes hs hmerged .both "mesh"⟩

end FactorStep
end MeshSharding
