import MeshSharding.Proofs.Resharding.Run

/-! Resharding between valid shardings. Where no references of the source to an opaque axis
could be merged, there are collectives for every target that keeps the unreduced axes. -/
namespace MeshSharding

open AxisList

namespace AxisList

variable {m : Mesh}

/-- References of size above 1 that are apart are distinct. -/
theorem Apart.nodup {l : List AxisRef} (h : Apart m l) (hv : AllValid m l)
    (hs : ∀ a ∈ l, 1 < a.size m) : l.Nodup := by
  rw [List.nodup_iff_count_le_one]
  intro a
  by_cases ha : a ∈ l
  · have hcov : a.covers m a.name a.preSize = true := by
      simpa [AxisRef.covers] using (hv a ha).preSize_lt_nextPreSize (hs a ha)
    refine Nat.le_trans ?_ (h a.name a.preSize)
    rw [coverage, List.count_eq_countP]
    refine List.countP_mono_left fun b _ hb => ?_
    rw [eq_of_beq hb]
    exact hcov
  · rw [List.count_eq_zero_of_not_mem ha]
    exact Nat.zero_le _

end AxisList

namespace TensorSharding

/-- The axes of the dimensions of the sharding have a common subdivision. -/
def Transparent (m : Mesh) (s : TensorSharding) : Prop :=
  ∃ cut, atomize m (s.dims.map (·.axes)) = .ok cut ∧ cut.opaqueAxes = []

theorem flatten_dims (s : TensorSharding) : (s.dims.map (·.axes)).flatten = s.dimAxes :=
  (List.flatMap_def ..).symm

theorem Transparent.opaqueAxes_eq_nil {m : Mesh} {s : TensorSharding} (h : s.Transparent m)
    (hs : s.Valid m) : opaqueAxes m s.dimAxes = [] := by
  obtain ⟨cut, hcut, hnil⟩ := h
  rw [atomize_eq (by rw [flatten_dims]; exact hs.allValid_dims.allValid_dimAxes),
    flatten_dims] at hcut
  cases hcut
  exact hnil

/-- In no dimension two neighbours can be merged if their axis is opaque in the dimension. -/
def Seamless (m : Mesh) (s : TensorSharding) : Prop :=
  ∀ d ∈ s.dims, AxisList.Seamless m d.axes

instance (m : Mesh) (s : TensorSharding) : Decidable (s.Seamless m) :=
  inferInstanceAs (Decidable (∀ d ∈ s.dims, AxisList.Seamless m d.axes))

theorem Transparent.seamless {m : Mesh} {s : TensorSharding} (h : s.Transparent m)
    (hs : s.Valid m) : s.Seamless m := fun _ hd =>
  seamless_of_opaqueAxes_eq_nil (h.opaqueAxes_eq_nil hs) fun _ ha => List.mem_flatMap.2 ⟨_, hd, ha⟩

/-- The axes of a dimension. -/
def axesAt (s : TensorSharding) (dim : Nat) : List AxisRef :=
  (s.dims.map (·.axes)).getD dim []

theorem axesAt_eq {s : TensorSharding} {dim : Nat} {d : DimSharding}
    (hd : s.dims[dim]? = some d) : s.axesAt dim = d.axes := by
  simp [axesAt, List.getD_eq_getElem?_getD, hd]

theorem flat_axesAt (s : TensorSharding) : flat s.rank s.axesAt = s.dimAxes := by
  have := flat_getD (s.dims.map (·.axes))
  rw [List.length_map] at this
  rw [← flatten_dims, ← this]
  rfl

theorem ValidDims.spells {m : Mesh} {s : TensorSharding} (h : s.ValidDims m) :
    Spells m s s.axesAt where
  axes _ d hd := h d (List.mem_of_getElem? hd)
  atoms dim := by
    cases hd : s.dims[dim]? with
    | none => simp [axesAt, List.getD_eq_getElem?_getD, hd, AllValid]
    | some d => rw [axesAt_eq hd]; exact h d (List.mem_of_getElem? hd)
  core _ _ hd := by rw [axesAt_eq hd]

theorem Valid.spells {m : Mesh} {s : TensorSharding} (h : s.Valid m) : Spells m s s.axesAt :=
  h.allValid_dims.spells

end TensorSharding

namespace Resharding

/-- The atoms of each dimension under the subdivision of `all`. -/
def atomLists (m : Mesh) (all : List AxisRef) (s : TensorSharding) : List (List AxisRef) :=
  (s.dims.map (·.axes)).map (atoms m all)

section atomLists

variable {m : Mesh} {all : List AxisRef} {s : TensorSharding}

theorem atoms_subset {l r : List AxisRef} (h : l ⊆ r) : atoms m all l ⊆ atoms m all r := by
  intro a ha
  obtain ⟨b, hb, hab⟩ := List.mem_flatMap.1 ha
  exact List.mem_flatMap.2 ⟨b, h hb, hab⟩

theorem length_atomLists (m : Mesh) (all : List AxisRef) (s : TensorSharding) :
    (atomLists m all s).length = s.rank := by simp [atomLists, TensorSharding.rank]

theorem getD_atomLists (s : TensorSharding) (dim : Nat) :
    (atomLists m all s).getD dim [] = atoms m all (s.axesAt dim) := by
  simp only [atomLists, TensorSharding.axesAt, List.getD_eq_getElem?_getD, List.getElem?_map]
  cases s.dims[dim]? <;> rfl

theorem axesAt_subset (s : TensorSharding) (dim : Nat) : s.axesAt dim ⊆ s.dimAxes := by
  intro a ha
  cases hd : s.dims[dim]? with
  | none => simp [TensorSharding.axesAt, List.getD_eq_getElem?_getD, hd] at ha
  | some d =>
    rw [TensorSharding.axesAt_eq hd] at ha
    exact List.mem_flatMap.2 ⟨d, List.mem_of_getElem? hd, ha⟩

theorem mem_flatten_atomLists {a : AxisRef} :
    a ∈ (atomLists m all s).flatten ↔ a ∈ atoms m all s.dimAxes := by
  simp only [atomLists, atoms, TensorSharding.dimAxes, List.mem_flatten, List.mem_flatMap,
    List.mem_map]
  grind

theorem flat_atomLists (s : TensorSharding) :
    flat s.rank ((atomLists m all s).getD · []) = (atomLists m all s).flatten := by
  have := flat_getD (atomLists m all s)
  rwa [length_atomLists] at this

theorem spells_atomLists (hs : s.ValidDims m) (hall : AllValid m all) (hsub : s.dimAxes ⊆ all) :
    Spells m s ((atomLists m all s).getD · []) := by
  have hsubset : ∀ dim, s.axesAt dim ⊆ all := fun dim a ha =>
    hsub (axesAt_subset s dim ha)
  refine ⟨fun dim d hd => hs d (List.mem_of_getElem? hd), fun dim => ?_, fun dim d hd => ?_⟩
  · rw [getD_atomLists]
    exact allValid_atoms hall (hsubset dim)
  · rw [getD_atomLists, core_atoms hall (hsubset dim), TensorSharding.axesAt_eq hd]

theorem coverage_flatten_atomLists (hs : s.Valid m) (hall : AllValid m all)
    (hsub : s.dimAxes ⊆ all) (name : String) (c : Nat) :
    coverage m name c (atomLists m all s).flatten = coverage m name c s.dimAxes := by
  rw [← flat_atomLists, (spells_atomLists hs.allValid_dims hall hsub).coverage_dimAxes]

theorem nodup_flatten_atomLists (hs : s.Valid m) (hall : AllValid m all)
    (hsub : s.dimAxes ⊆ all) : (atomLists m all s).flatten.Nodup := by
  have hmem : ∀ a ∈ (atomLists m all s).flatten, a.Valid m ∧ 1 < a.size m := fun a ha =>
    have h := mem_atoms hall hsub (mem_flatten_atomLists.1 ha)
    ⟨h.1, h.2.1⟩
  refine Apart.nodup (m := m) (fun name c => ?_) (fun a ha => (hmem a ha).1)
    fun a ha => (hmem a ha).2
  rw [coverage_flatten_atomLists hs hall hsub]
  have hapart := hs.2 name c
  simp only [TensorSharding.usedAxes, coverage_append] at hapart
  omega

theorem within_atomLists (hall : AllValid m all) (hsub : s.dimAxes ⊆ all) :
    Within m (boundaries m all) (s.dimAxes ++ (atomLists m all s).flatten) := by
  refine within_append.2 ⟨(within_boundaries all).subset hsub, fun a ha => ?_⟩
  have h := mem_atoms hall hsub (mem_flatten_atomLists.1 ha)
  exact ⟨h.2.2.1, h.2.2.2.1⟩

end atomLists

section reshard

variable {m : Mesh} {source target : TensorSharding}

/-- The plan that is made for the two shardings. -/
def route (m : Mesh) (source target : TensorSharding) : Plan :=
  let all := source.dimAxes ++ target.dimAxes
  plan (Task.ofAtoms (opaqueAxes m all) (atomLists m all source) (atomLists m all target))

theorem atomize_dims (hs : source.ValidDims m) (ht : target.ValidDims m) :
    let all := source.dimAxes ++ target.dimAxes
    atomize m (source.dims.map (·.axes) ++ target.dims.map (·.axes))
      = .ok ⟨atomLists m all source ++ atomLists m all target, opaqueAxes m all⟩ := by
  intro all
  have hflat : (source.dims.map (·.axes) ++ target.dims.map (·.axes)).flatten = all := by
    rw [List.flatten_append, TensorSharding.flatten_dims, TensorSharding.flatten_dims]
  have hvalid : AllValid m all := allValid_append.2 ⟨hs.allValid_dimAxes, ht.allValid_dimAxes⟩
  rw [atomize_eq (hflat ▸ hvalid), hflat, List.map_append]
  rfl

theorem synthesize_eq (hs : source.ValidDims m) (ht : target.ValidDims m) :
    synthesize source target m = .ok (collectives (route m source target) source
      (atomLists m (source.dimAxes ++ target.dimAxes) source) m) := by
  have hlen := length_atomLists m (source.dimAxes ++ target.dimAxes) source
  rw [synthesize, atomize_dims hs ht]
  simp only [bind, Except.bind, pure, Except.pure]
  rw [List.take_left' hlen, List.drop_left' hlen]
  rfl

theorem route_spec (hs : source.Valid m) (ht : target.Valid m) (hseam : source.Seamless m)
    (hrank : source.rank = target.rank)
    (hu : mergeAdjacent m source.unreduced = mergeAdjacent m target.unreduced) :
    let all := source.dimAxes ++ target.dimAxes
    Route m (boundaries m all) source target
      (atomLists m all source) (atomLists m all target) (route m source target) := by
  intro all
  have hall : AllValid m all := allValid_append.2
    ⟨hs.allValid_dims.allValid_dimAxes, ht.allValid_dims.allValid_dimAxes⟩
  have hsub : source.dimAxes ⊆ all := List.subset_append_left _ _
  have hsub' : target.dimAxes ⊆ all := List.subset_append_right _ _
  have hwithin := within_append.1 (within_atomLists hall hsub)
  have hextra := hs.allValid_extra
  have hcover : ∀ name c, coverage m name c source.unreduced
      = coverage m name c target.unreduced := fun name c => by
    rw [← coverage_mergeAdjacent hextra.2, hu, coverage_mergeAdjacent ht.allValid_extra.2]
  refine
    { links := links_plan ?_ (nodup_flatten_atomLists hs hall hsub)
        (nodup_flatten_atomLists ht hall hsub')
      ladder := fun dim a ha => not_mem_opaqueAxes_iff.1 (clear_plan ha)
      start := ⟨spells_atomLists hs.allValid_dims hall hsub, fun dim d hd => ?_, fun dim => ?_,
        fun dim a ha => ?_⟩
      goal := spells_atomLists ht.allValid_dims hall hsub'
      rank := length_atomLists ..
      replicated := hextra.1
      unreduced := hextra.2
      apart := fun name c => ?_
      room := fun name c => ?_ }
  · rw [length_atomLists, length_atomLists, hrank]
  · have hmem : d ∈ source.dims := List.mem_of_getElem? hd
    exact ⟨hwithin.1.subset fun a ha => List.mem_flatMap.2 ⟨d, hmem, ha⟩, hseam d hmem⟩
  · refine hwithin.2.subset fun a ha => ?_
    rw [getD_atomLists] at ha
    exact mem_flatten_atomLists.2 (atoms_subset (axesAt_subset source dim) ha)
  · rw [getD_atomLists] at ha
    exact (mem_atoms hall hsub (atoms_subset (axesAt_subset source dim) ha)).2.1
  · have := hs.2 name c
    simpa only [TensorSharding.usedAxes, coverage_append, flat_atomLists,
      coverage_flatten_atomLists hs hall hsub] using this
  · have := ht.2 name c
    simp only [TensorSharding.usedAxes, coverage_append] at this
    rw [hrank, flat_atomLists, coverage_append, coverage_flatten_atomLists ht hall hsub',
      hcover]
    omega

end reshard

end Resharding
end MeshSharding
