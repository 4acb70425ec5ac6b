import MeshSharding.Proofs.Propagation.Table

/-! When a refinement keeps a table valid. The test of overlap is made against the other dimensions
only, so whether the refined dimension stays valid is left to the axes that it is given: it does
exactly if no two of them overlap. -/
namespace MeshSharding

namespace AxisList

variable {m : Mesh} {l r : List AxisRef}

/-- No two references overlap. -/
def NoOverlap (m : Mesh) (l : List AxisRef) : Prop :=
  l.Pairwise fun a b => ¬ a.overlaps b m = true

theorem noOverlap_iff_apart (hl : AllValid m l) : NoOverlap m l ↔ Apart m l := by
  refine ⟨fun h => ?_, fun h => h.pairwise hl⟩
  induction l with
  | nil => exact fun _ _ => Nat.zero_le _
  | cons a rest ih =>
    rw [allValid_cons] at hl
    obtain ⟨hfirst, hrest⟩ := List.pairwise_cons.1 h
    exact (apart_cons hl.1 hl.2).2 ⟨ih hl.2 hrest, hfirst⟩

theorem apart_mergeAdjacent_iff (hl : AllValid m l) : Apart m (mergeAdjacent m l) ↔ Apart m l := by
  simp only [Apart, coverage_mergeAdjacent hl]

/-- Two lists are apart together if each of them is and they have nothing in common. -/
theorem apart_append_iff (hl : AllValid m l) (hr : AllValid m r) :
    Apart m (l ++ r) ↔ Apart m l ∧ Apart m r ∧ ∀ a ∈ l, overlapsAny m a r = false := by
  refine ⟨fun h => ⟨h.sublist (List.sublist_append_left ..),
    h.sublist (List.sublist_append_right ..), fun a ha => ?_⟩, fun ⟨hal, har, hfree⟩ =>
    apart_append_of_not_overlaps hl hr hal har hfree⟩
  refine overlapsAny_eq_false hl hr (fun name c hpos => ?_) ha
  have hle := h name c
  rw [coverage_append] at hle
  omega

end AxisList

open AxisList

namespace TensorSharding

variable {m : Mesh} {s s' : TensorSharding} {dim : Nat} {d : DimSharding}
  {axes added : List AxisRef}

/-- An accepted refinement keeps a sharding valid exactly if no two of the axes overlap. -/
theorem valid_refineDim_iff (h : s.Valid m) (hv : AllValid m axes)
    (hrefine : s.refineDim m dim axes = some s') : s'.Valid m ↔ NoOverlap m axes := by
  rw [noOverlap_iff_apart hv]
  refine ⟨fun hvalid => ?_, fun ha => h.refineDim hv ha hrefine⟩
  obtain ⟨d, added, hd, -, -, -, -, rfl⟩ := refineDim_eq_some hrefine
  exact (apart_mergeAdjacent_iff hv).1 (hvalid.apart_axes (dims_modifyDim hd _))

/-- Where the added axes are free of the other dimensions, no two of the axes overlap exactly if the
added ones are free of the whole sharding and of each other. -/
theorem noOverlap_iff_added (h : s.Valid m) (hv : AllValid m axes) (hd : s.dims[dim]? = some d)
    (hstrip : stripPrefix? m axes d.axes = some added)
    (hfree : ∀ a ∈ added, overlapsAny m a (s.axesOutside dim) = false) :
    NoOverlap m axes ↔ (∀ a ∈ added, overlapsAny m a s.usedAxes = false) ∧ NoOverlap m added := by
  obtain ⟨hvalid, hapart⟩ := (valid_iff hd).1 h
  obtain ⟨hvd, hvo⟩ := allValid_append.1 hvalid
  have hold := hapart.sublist (List.sublist_append_left ..)
  have hva := (stripPrefix?_eq_some hv hvd hstrip).1
  have hused : ∀ a, overlapsAny m a s.usedAxes
      = (overlapsAny m a d.axes || overlapsAny m a (s.axesOutside dim)) := fun a => by
    rw [overlapsAny, (perm_usedAxes hd).any_eq, List.any_append]
    rfl
  have hsplit : Apart m axes ↔ Apart m (added ++ d.axes) := by
    simp only [Apart, coverage_stripPrefix? hv hvd hstrip, coverage_append, Nat.add_comm]
  rw [noOverlap_iff_apart hv, noOverlap_iff_apart hva, hsplit, apart_append_iff hva hvd]
  constructor
  · rintro ⟨hadded, -, hdisjoint⟩
    exact ⟨fun a ha => by rw [hused, hdisjoint a ha, hfree a ha]; rfl, hadded⟩
  · rintro ⟨hdisjoint, hadded⟩
    refine ⟨hadded, hold, fun a ha => ?_⟩
    have hnone := hdisjoint a ha
    rw [hused, Bool.or_eq_false_iff] at hnone
    exact hnone.1

end TensorSharding

namespace ShardingTable

variable {t t' : ShardingTable} {value dim : Nat} {axes : List AxisRef} {name : String} {m : Mesh}
  {entry : TableEntry}

/-- The shardings over the mesh pass its check, for the tensors of their rank. -/
def ValidOver (t : ShardingTable) (name : String) (m : Mesh) : Prop :=
  ∀ (value : Nat) (entry : TableEntry) (s : TensorSharding), t[value]? = some entry →
    entry.sharding = some s → s.meshName = name →
    ∀ shape : Shape, shape.length = entry.rank → s.validate m shape = .ok ()

theorem validOver_iff : t.ValidOver name m ↔
    ∀ (value : Nat) (entry : TableEntry) (s : TensorSharding), t[value]? = some entry →
      entry.sharding = some s → s.meshName = name → s.rank = entry.rank ∧ s.Valid m := by
  simp only [ValidOver, TensorSharding.validate_eq_ok_iff]
  constructor
  · intro h value entry s hentry hs hname
    have hshape := h value entry s hentry hs hname (List.replicate entry.rank 0) (by simp)
    exact ⟨by simpa using hshape.1, hshape.2⟩
  · intro h value entry s hentry hs hname shape hshape
    obtain ⟨hrank, hvalid⟩ := h value entry s hentry hs hname
    exact ⟨hrank.trans hshape.symm, hvalid⟩

/-- What counts as the sharding of a value is valid, too. -/
theorem ValidOver.valid_getD (h : t.ValidOver name m) (hentry : t[value]? = some entry)
    (hname : (entry.sharding.getD (.fullyOpen name entry.rank)).meshName = name) :
    (entry.sharding.getD (.fullyOpen name entry.rank)).rank = entry.rank ∧
      (entry.sharding.getD (.fullyOpen name entry.rank)).Valid m := by
  cases hs : entry.sharding with
  | none => exact ⟨by simp, TensorSharding.valid_fullyOpen ..⟩
  | some s =>
    rw [hs] at hname
    exact validOver_iff.1 h value entry s hentry hs hname

/-- Where a sharding over the mesh is put into a valid table, the table stays valid exactly if the
sharding is. -/
theorem validOver_put_iff (h : t.ValidOver name m) (hentry : t[value]? = some entry)
    {s : TensorSharding} (hname : s.meshName = name) (hrank : s.rank = entry.rank) :
    (t.put value (some s)).ValidOver name m ↔ s.Valid m := by
  rw [validOver_iff] at h ⊢
  have hput : ∀ i, (t.put value (some s))[i]?
      = if value = i then some { entry with sharding := some s } else t[i]? := fun i => by
    rw [put, List.getElem?_modify]
    split
    · rename_i heq
      rw [← heq, hentry]
      rfl
    · simp
  constructor
  · intro hall
    exact (hall value _ s (by rw [hput, if_pos rfl]) rfl hname).2
  · intro hs i e x he hx hxname
    rw [hput] at he
    split at he
    · cases he
      cases hx
      exact ⟨hrank, hs⟩
    · exact h i e x he hx hxname

/-- A refinement to valid axes keeps a table valid exactly if it is refused or no two of the axes
overlap. What it adds is always free of the other dimensions; it is free of the refined dimension
and of itself exactly if no two of the axes overlap. -/
theorem validOver_refine_iff (h : t.ValidOver name m) (hv : AllValid m axes) :
    (((t.refine value dim axes name m).getD t).ValidOver name m ↔
      t.refine value dim axes name m = none ∨ NoOverlap m axes) ∧
    ∀ t', t.refine value dim axes name m = some t' → ∃ entry s d added,
      t[value]? = some entry ∧ s = entry.sharding.getD (.fullyOpen name entry.rank) ∧
      s.dims[dim]? = some d ∧ stripPrefix? m axes d.axes = some added ∧
      (∀ a ∈ added, overlapsAny m a (s.axesOutside dim) = false) ∧
      (NoOverlap m axes ↔
        (∀ a ∈ added, overlapsAny m a s.usedAxes = false) ∧ NoOverlap m added) := by
  constructor
  · cases hrefine : t.refine value dim axes name m with
    | none => simpa using h
    | some t' =>
      obtain ⟨entry, s, hentry, hname, hs, rfl⟩ := refine_eq_some_iff.1 hrefine
      obtain ⟨hrank, hvalid⟩ := h.valid_getD hentry hname
      have hkept : s.meshName = name ∧ s.rank = entry.rank := by
        obtain ⟨d, added, -, -, -, -, -, rfl⟩ := TensorSharding.refineDim_eq_some hs
        exact ⟨hname, by rw [TensorSharding.modifyDim_rank, hrank]⟩
      rw [Option.getD_some, validOver_put_iff h hentry hkept.1 hkept.2,
        TensorSharding.valid_refineDim_iff hvalid hv hs]
      simp
  · intro t' hrefine
    obtain ⟨entry, s, hentry, hname, hs, -⟩ := refine_eq_some_iff.1 hrefine
    obtain ⟨-, hvalid⟩ := h.valid_getD hentry hname
    obtain ⟨d, added, hd, -, -, hstrip, hfree, -⟩ := TensorSharding.refineDim_eq_some hs
    exact ⟨entry, _, d, added, hentry, rfl, hd, hstrip, hfree,
      TensorSharding.noOverlap_iff_added hvalid hv hd hstrip hfree⟩

/-- A value that has no sharding yet takes both axes. -/
theorem validOver_refine_iff_grid :
    let m : Mesh := .grid 2 2 (by decide) (by decide)
    let t : ShardingTable := [⟨1, none⟩]
    let axes : List AxisRef := [.full "x", .full "y"]
    t.ValidOver "mesh" m ∧ AllValid m axes ∧
      (((t.refine 0 0 axes "mesh" m).getD t).ValidOver "mesh" m ↔
        t.refine 0 0 axes "mesh" m = none ∨ NoOverlap m axes) ∧
      ∀ t', t.refine 0 0 axes "mesh" m = some t' → ∃ entry s d added,
        t[0]? = some entry ∧ s = entry.sharding.getD (.fullyOpen "mesh" entry.rank) ∧
        s.dims[0]? = some d ∧ stripPrefix? m axes d.axes = some added ∧
        (∀ a ∈ added, overlapsAny m a (s.axesOutside 0) = false) ∧
        (NoOverlap m axes ↔
          (∀ a ∈ added, overlapsAny m a s.usedAxes = false) ∧ NoOverlap m added) := by
  intro m t axes
  have ht : t.ValidOver "mesh" m := by
    rintro (_ | i) entry s hentry hs <;> cases hentry
    cases hs
  have haxes : AllValid m axes := by
    unfold AllValid AxisRef.Valid
    decide
  exact ⟨ht, haxes, validOver_refine_iff ht haxes⟩

/-- A dimension that has an axis takes the same axis again. -/
theorem not_validOver_refine_repeated :
    let m : Mesh := .grid 2 2 (by decide) (by decide)
    let axes : List AxisRef := [.full "x", .full "x"]
    let before := TensorSharding.ofDims "mesh" [.ofAxes [.full "x"] false]
    let after := TensorSharding.ofDims "mesh" [.ofAxes axes false]
    before.validate m [4] = .ok () ∧ AllValid m axes ∧
      ShardingTable.refine [⟨1, some before⟩] 0 0 axes "mesh" m = some [⟨1, some after⟩] ∧
      stripPrefix? m axes [.full "x"] = some [.full "x"] ∧
      after.validate m [4] = .error (.axisReused (.full "x")) ∧
      ShardingTable.ValidOver [⟨1, some before⟩] "mesh" m ∧
      ¬ ShardingTable.ValidOver [⟨1, some after⟩] "mesh" m := by
  intro m axes before after
  have hbefore : before.validate m [4] = .ok () := by decide
  have hafter : after.validate m [4] = .error (.axisReused (.full "x")) := by decide
  have haxes : AllValid m axes := by
    unfold AllValid AxisRef.Valid
    decide
  refine ⟨hbefore, haxes, by decide, by decide, hafter, validOver_iff.2 ?_, fun h => ?_⟩
  · rintro (_ | i) entry s hentry hs <;> cases hentry
    cases hs
    exact fun _ => TensorSharding.validate_eq_ok_iff.1 hbefore
  · cases (h 0 _ after rfl rfl rfl [4] rfl).symm.trans hafter

end ShardingTable
end MeshSharding
