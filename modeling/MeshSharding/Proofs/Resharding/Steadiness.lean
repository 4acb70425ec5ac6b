import MeshSharding.Proofs.AxisList.Agreement
import MeshSharding.Proofs.Resharding.Outcome

/-! What resharding leaves alone. The atoms with which source and target of a dimension begin are
kept in front of all that moves, is gathered or is sliced, so no collective on the way touches the
axes on which the two agree, also where they end within a reference. -/
namespace MeshSharding

open AxisList Collective

variable {m : Mesh} {source target s t : TensorSharding} {A : Nat → List AxisRef}

namespace Collective

variable {c : Collective} {cs ds : List Collective} {P : TensorSharding → Prop}

/-- All shardings that the collectives lead through satisfy `P`, the first and the last one
included. -/
def Throughout (m : Mesh) (P : TensorSharding → Prop) (cs : List Collective)
    (s : TensorSharding) : Prop :=
  ∀ before t, before <+: cs → applyAll before s m = .ok t → P t

theorem throughout_nil : Throughout m P [] s ↔ P s := by
  refine ⟨fun h => h [] s List.nil_prefix rfl, fun h before t hbefore happly => ?_⟩
  obtain rfl := List.prefix_nil.1 hbefore
  cases happly
  exact h

theorem throughout_cons : Throughout m P (c :: cs) s ↔
    P s ∧ ∀ t, c.apply s m = .ok t → Throughout m P cs t := by
  constructor
  · refine fun h => ⟨h [] s List.nil_prefix rfl, fun t ht before u hbefore hu => ?_⟩
    exact h (c :: before) u (List.cons_prefix_cons.2 ⟨rfl, hbefore⟩)
      (applyAll_cons_eq_ok_iff.2 ⟨t, ht, hu⟩)
  · rintro ⟨hs, hrest⟩ before u hbefore hu
    rcases List.prefix_cons_iff.1 hbefore with rfl | ⟨before, rfl, hbefore'⟩
    · cases hu
      exact hs
    · obtain ⟨t, ht, hu⟩ := applyAll_cons_eq_ok_iff.1 hu
      exact hrest t ht before u hbefore' hu

/-- What holds throughout one run and throughout the next one holds throughout both. -/
theorem Throughout.append (h : Throughout m P cs s)
    (h' : ∀ t, applyAll cs s m = .ok t → Throughout m P ds t) :
    Throughout m P (cs ++ ds) s := by
  induction cs generalizing s with
  | nil => exact h' s rfl
  | cons c cs ih =>
    rw [throughout_cons] at h
    refine throughout_cons.2 ⟨h.1, fun t ht => ih (h.2 t ht) fun u hu => ?_⟩
    exact h' u (applyAll_cons_eq_ok_iff.2 ⟨t, ht, hu⟩)

/-- A single collective leads through its source and its result only. -/
theorem throughout_of_length_le_one (hcs : cs.length ≤ 1) (hs : P s)
    (hend : ∀ t, applyAll cs s m = .ok t → P t) : Throughout m P cs s := by
  match cs, hcs with
  | [], _ => exact throughout_nil.2 hs
  | [c], _ =>
    exact throughout_cons.2 ⟨hs, fun t ht =>
      throughout_nil.2 (hend t (applyAll_cons_eq_ok_iff.2 ⟨t, ht, rfl⟩))⟩

end Collective

namespace Resharding

/-- The sharding comes of `source`, and each of its dimensions begins with the atoms that `lead`
has for it. -/
def Keeps (m : Mesh) (source : TensorSharding) (lead : Nat → List AxisRef)
    (s : TensorSharding) : Prop :=
  ∃ A, Reaches m source s A ∧ ∀ dim, lead dim <+: A dim

section plan

variable {S T : List (List AxisRef)} {p : Plan} {lead : Nat → List AxisRef}

theorem kept_isPrefix_occupied (p : Plan) (done todo : List Move) (dim : Nat) :
    (p.dim dim).kept <+: occupied p done todo dim := by
  simp [occupied]

theorem kept_isPrefix_held (p : Plan) (dim : Nat) : (p.dim dim).kept <+: Route.held p dim :=
  List.prefix_append ..

theorem kept_isPrefix_reached (p : Plan) (dim : Nat) :
    (p.dim dim).kept <+: Route.reached p dim :=
  (kept_isPrefix_held p dim).trans (List.prefix_append ..)

theorem Keeps.of_kept (h : Reaches m source s A) (hkept : ∀ dim, lead dim <+: (p.dim dim).kept)
    (hA : ∀ dim, (p.dim dim).kept <+: A dim) : Keeps m source lead s :=
  ⟨A, h, fun dim => (hkept dim).trans (hA dim)⟩

theorem throughout_alignment (h : Leads S T p) (hrank : S.length = source.rank)
    (hS : Spells m source (S.getD · [])) (hT : ∀ dim, AllValid m (T.getD dim []))
    (hkept : ∀ dim, lead dim <+: (p.dim dim).kept) (hlead : ∀ dim, lead dim <+: S.getD dim []) :
    Throughout m (Keeps m source lead) (alignment p source S m) source := by
  refine throughout_of_length_le_one ?_ ⟨_, .refl hS, hlead⟩ fun t ht =>
    .of_kept (reaches_alignment h hrank hS hT ht) hkept (kept_isPrefix_occupied p _ _)
  unfold alignment
  split <;> simp

/-- The induction is on the batches that are still to be exchanged. -/
theorem throughout_exchanges (h : Leads S T p) (hkept : ∀ dim, lead dim <+: (p.dim dim).kept)
    (done : List Move) {batches : List (List Move)} (hm : p.moves = done ++ batches.flatten)
    (hs : Reaches m source s (occupied p done batches.flatten)) :
    Throughout m (Keeps m source lead) (batches.map fun batch => .allToAll
      (batch.map fun move => { move with axes := mergeAdjacent m move.axes })) s := by
  have hkeeps : Keeps m source lead s := .of_kept hs hkept (kept_isPrefix_occupied p _ _)
  induction batches generalizing done s with
  | nil => exact throughout_nil.2 hkeeps
  | cons batch batches ih =>
    refine throughout_cons.2 ⟨hkeeps, fun t ht => ?_⟩
    have hbatch := hs.trans (reaches_batch h hm hs.toSpells ht)
    exact ih (done ++ batch) (by simpa using hm) hbatch
      (.of_kept hbatch hkept (kept_isPrefix_occupied p _ _))

theorem throughout_gather {B : Nat → List AxisRef} (hs : Reaches m source s A)
    (hkeeps : Keeps m source lead s) (hkept : ∀ dim, lead dim <+: (p.dim dim).kept)
    (hAB : ∀ dim, A dim = B dim ++ (p.dim dim).gathered)
    (hB : ∀ dim, (p.dim dim).kept <+: B dim) :
    Throughout m (Keeps m source lead) ([allGather (p.dims.map fun d =>
      mergeAdjacent m d.gathered)].filter fun c => !c.isEmpty) s :=
  throughout_of_length_le_one (List.length_filter_le ..) hkeeps fun _ ht =>
    .of_kept (hs.trans (reaches_gather hs.toSpells hAB ht)) hkept hB

theorem throughout_slice {B : Nat → List AxisRef} (h : Leads S T p)
    (hT : ∀ dim, AllValid m (T.getD dim [])) (hs : Reaches m source s A)
    (hkeeps : Keeps m source lead s) (hkept : ∀ dim, lead dim <+: (p.dim dim).kept)
    (hAB : ∀ dim, B dim = A dim ++ (p.dim dim).sliced)
    (hB : ∀ dim, (p.dim dim).kept <+: B dim) :
    Throughout m (Keeps m source lead) ([allSlice (p.dims.map fun d =>
      mergeAdjacent m d.sliced)].filter fun c => !c.isEmpty) s :=
  throughout_of_length_le_one (List.length_filter_le ..) hkeeps fun _ ht =>
    .of_kept (hs.trans (reaches_slice h hT hs.toSpells hAB ht)) hkept hB

/-- The atoms in front stay there whether the gather or the slice comes first. -/
theorem throughout_gatherAndSlice (h : Leads S T p) (hT : ∀ dim, AllValid m (T.getD dim []))
    (hkept : ∀ dim, lead dim <+: (p.dim dim).kept)
    (hs : Reaches m source s (occupied p p.moves [])) :
    Throughout m (Keeps m source lead) (gatherAndSlice p m) s := by
  have hkeeps : Keeps m source lead s := .of_kept hs hkept (kept_isPrefix_occupied p _ _)
  unfold gatherAndSlice
  cases hg : gathersFirst p m with
  | true =>
    dsimp only
    rw [if_pos rfl, ← List.singleton_append, List.filter_append]
    refine (throughout_gather hs hkeeps hkept (Route.occupied_eq h)
      (kept_isPrefix_held p)).append fun t ht => ?_
    have ht := hs.trans (reaches_gather hs.toSpells (Route.occupied_eq h) ht)
    exact throughout_slice h hT ht (.of_kept ht hkept (kept_isPrefix_held p)) hkept (fun _ => rfl)
      (kept_isPrefix_reached p)
  | false =>
    dsimp only
    rw [if_neg Bool.false_ne_true, ← List.singleton_append, List.filter_append]
    have hkept' : ∀ dim, (p.dim dim).kept <+: occupied p p.moves [] dim ++ (p.dim dim).sliced :=
      fun dim => (kept_isPrefix_occupied p _ _ dim).trans (List.prefix_append ..)
    refine (throughout_slice h hT hs hkeeps hkept (fun _ => rfl) hkept').append fun t ht => ?_
    have ht := hs.trans (reaches_slice h hT hs.toSpells (fun _ => rfl) ht)
    refine throughout_gather ht (.of_kept ht hkept hkept') hkept (fun dim => ?_)
      (kept_isPrefix_reached p)
    rw [Route.occupied_eq h, Route.reached]
    rcases Route.gathered_or_sliced hg dim with hnil | hnil <;> simp [hnil]

/-- The collectives of a plan keep in front what source and plan have there. -/
theorem throughout_collectives (h : Leads S T p) (hrank : S.length = source.rank)
    (hS : Spells m source (S.getD · [])) (hT : ∀ dim, AllValid m (T.getD dim []))
    (hkept : ∀ dim, lead dim <+: (p.dim dim).kept) (hlead : ∀ dim, lead dim <+: S.getD dim []) :
    Throughout m (Keeps m source lead) (collectives p source S m) source := by
  have hflat : (batchesFrom [] p.moves).flatten = p.moves := Route.flatten_batchesFrom [] p.moves
  have halign := fun t => reaches_alignment (t := t) h hrank hS hT
  refine ((throughout_alignment h hrank hS hT hkept hlead).append fun t ht => ?_).append
    fun u hu => ?_
  · exact throughout_exchanges h hkept [] hflat.symm (hflat.symm ▸ halign t ht)
  · obtain ⟨t, ht, hu⟩ := applyAll_append_eq_ok_iff.1 hu
    have ht := halign t ht
    exact throughout_gatherAndSlice h hT hkept
      (ht.trans (reaches_exchanges h [] hflat.symm (hflat.symm ▸ ht.toSpells) hu))

end plan

/-- Resharding keeps the atoms with which both source and target begin in front. -/
theorem throughout_reshard {lead : Nat → List AxisRef} {cs : List Collective}
    (hclear : Clear m (source.dimAxes ++ target.dimAxes)) (hs : source.ValidDims m)
    (ht : target.ValidDims m)
    (hsource : ∀ dim,
      lead dim <+: (atomLists m (source.dimAxes ++ target.dimAxes) source).getD dim [])
    (htarget : ∀ dim,
      lead dim <+: (atomLists m (source.dimAxes ++ target.dimAxes) target).getD dim [])
    (h : reshard source target m = .ok cs) :
    Throughout m (Keeps m source lead) cs source := by
  obtain ⟨-, hrank, -, hcs⟩ := reshard_eq_ok h
  have hall := allValid_append.2 ⟨hs.allValid_dimAxes, ht.allValid_dimAxes⟩
  have hS := spells_atomLists hs hall (List.subset_append_left _ _)
  have hT := spells_atomLists ht hall (List.subset_append_right _ _)
  have hkeeps : Keeps m source lead source := ⟨_, .refl hS, hsource⟩
  rcases hcs with ⟨-, rfl⟩ | rfl | hcs
  · exact throughout_nil.2 hkeeps
  · refine throughout_of_length_le_one (Nat.le_refl _) hkeeps fun t happly => ?_
    obtain ⟨u, hpermute, happly⟩ := applyAll_cons_eq_ok_iff.1 happly
    cases happly
    exact ⟨_, reaches_permute hT hpermute, htarget⟩
  · rw [synthesize_eq hs ht] at hcs
    cases hcs
    have hleads : Leads _ _ (route m source target) :=
      leads_plan (by rw [length_atomLists, length_atomLists, hrank])
    refine throughout_collectives hleads (length_atomLists ..) hS hT.atoms
      (fun dim => isPrefix_kept_plan (fun a _ => ?_) (hsource dim) (htarget dim)) hsource
    exact not_mem_opaqueAxes_iff.2 (hclear _)

section common

/-- The atoms of what source and target of a dimension have in common. -/
def commonAtoms (m : Mesh) (source target : TensorSharding) (dim : Nat) : List AxisRef :=
  atoms m (source.dimAxes ++ target.dimAxes)
    (commonPrefix m (source.axesAt dim) (target.axesAt dim))

theorem axesAt_subset_left (source target : TensorSharding) (dim : Nat) :
    source.axesAt dim ⊆ source.dimAxes ++ target.dimAxes :=
  List.Subset.trans (axesAt_subset source dim) (List.subset_append_left _ _)

theorem axesAt_subset_right (source target : TensorSharding) (dim : Nat) :
    target.axesAt dim ⊆ source.dimAxes ++ target.dimAxes :=
  List.Subset.trans (axesAt_subset target dim) (List.subset_append_right _ _)

theorem commonAtoms_isPrefix_source (hclear : Clear m (source.dimAxes ++ target.dimAxes))
    (hall : AllValid m (source.dimAxes ++ target.dimAxes)) (dim : Nat) :
    commonAtoms m source target dim
      <+: (atomLists m (source.dimAxes ++ target.dimAxes) source).getD dim [] := by
  rw [getD_atomLists]
  exact atoms_commonPrefix_isPrefix hclear hall (axesAt_subset_left ..) (axesAt_subset_right ..)

theorem commonAtoms_isPrefix_target (hclear : Clear m (source.dimAxes ++ target.dimAxes))
    (hall : AllValid m (source.dimAxes ++ target.dimAxes)) (dim : Nat) :
    commonAtoms m source target dim
      <+: (atomLists m (source.dimAxes ++ target.dimAxes) target).getD dim [] := by
  rw [getD_atomLists, commonAtoms, commonPrefix_comm]
  exact atoms_commonPrefix_isPrefix hclear hall (axesAt_subset_right ..) (axesAt_subset_left ..)

/-- A sharding that keeps the common atoms in front has the common axes there. -/
theorem Keeps.isPrefix_commonPrefix (h : Keeps m source (commonAtoms m source target) s)
    (hm : m.NoUnitAxes) (hall : AllValid m (source.dimAxes ++ target.dimAxes)) {dim : Nat}
    {d e : DimSharding} (hd : source.dims[dim]? = some d) (he : target.dims[dim]? = some e) :
    ∃ x, s.dims[dim]? = some x ∧ isPrefix m (commonPrefix m d.axes e.axes) x.axes = true := by
  obtain ⟨A, hreaches, hlead⟩ := h
  obtain ⟨x, hx⟩ := TensorSharding.exists_dim hreaches.rank.symm hd
  have hleft := axesAt_subset_left source target dim
  have hright := axesAt_subset_right source target dim
  have hcommon := (commonPrefix_spec (hall.subset hleft) (hall.subset hright)).1
  rw [← TensorSharding.axesAt_eq hd, ← TensorSharding.axesAt_eq he]
  exact ⟨x, hx, isPrefix_of_atoms_isPrefix hm hall hcommon (within_commonPrefix hall hleft hright)
    (hreaches.axes dim x hx) (hreaches.atoms dim) (hlead dim) (hreaches.core dim x hx)⟩

end common

/-- On a mesh without axes of size 1, resharding between valid shardings none of whose axes is
opaque leads to the layout of the target, and what source and target of a dimension have in common
is in front of the axes of that dimension in every sharding on the way. -/
theorem isPrefix_commonPrefix_throughout_reshard (m : Mesh) (hm : ∀ axis ∈ m.axes, 2 ≤ axis.size)
    (source target : TensorSharding) (sourceShape targetShape : Shape)
    (hmesh : source.meshName = target.meshName) (hrank : source.rank = target.rank)
    (hu : mergeAdjacent m source.unreduced = mergeAdjacent m target.unreduced)
    (hs : source.validate m sourceShape = .ok ()) (ht : target.validate m targetShape = .ok ())
    (hclear : ∃ cut, atomize m (source.dims.map (·.axes) ++ target.dims.map (·.axes)) = .ok cut ∧
      cut.opaqueAxes = []) :
    ∃ cs reached, reshard source target m = .ok cs ∧ applyAll cs source m = .ok reached ∧
      reached.hasSameLayout target m = true ∧
      Throughout m (fun s => ∀ (dim : Nat) (d e : DimSharding), source.dims[dim]? = some d →
        target.dims[dim]? = some e → ∃ x, s.dims[dim]? = some x ∧
          isPrefix m (commonPrefix m d.axes e.axes) x.axes = true) cs source := by
  have hs := (TensorSharding.validate_eq_ok_iff.1 hs).2
  have ht := (TensorSharding.validate_eq_ok_iff.1 ht).2
  have hall := allValid_append.2
    ⟨hs.allValid_dims.allValid_dimAxes, ht.allValid_dims.allValid_dimAxes⟩
  obtain ⟨cut, hcut, hnone⟩ := hclear
  obtain ⟨rfl, -⟩ := atomize_eq_ok hcut
  rw [List.flatten_append, source.flatten_dims, target.flatten_dims] at hnone
  have hseam : source.Seamless m := fun d hd => seamless_of_opaqueAxes_eq_nil hnone fun a ha =>
    List.mem_append_left _ (List.mem_flatMap.2 ⟨d, hd, ha⟩)
  obtain ⟨cs, A, t, B, hreshard, -, hrun, -⟩ := run_reshard_of_seamless hs ht hseam hmesh hrank hu
  obtain ⟨hcores, hreached⟩ := sameCores_of_applyAll_reshard hs.allValid_dims ht.allValid_dims
    hreshard hrun.applyAll
  have hclear := clear_iff.2 hnone
  have hkeeps := throughout_reshard hclear hs.allValid_dims ht.allValid_dims
    (commonAtoms_isPrefix_source hclear hall) (commonAtoms_isPrefix_target hclear hall) hreshard
  exact ⟨cs, t, hreshard, hrun.applyAll, hcores.hasSameLayout hm hreached ht.allValid_dims,
    fun before s hbefore happly dim d e hd he =>
      (hkeeps before s hbefore happly).isPrefix_commonPrefix hm hall hd he⟩

/-- The major half of the first quarter of `x`, which ends within a reference of the source, is in
front while the other half moves, `y` is gathered and a further part of `x` is sliced. -/
theorem isPrefix_commonPrefix_throughout_reshard_grid :
    let m := Mesh.grid 16 4 (by decide) (by decide)
    let source := TensorSharding.ofDims "mesh"
      [.ofAxes [.sub "x" 1 4, .full "y"] true, .ofAxes [] true]
    let target := TensorSharding.ofDims "mesh"
      [.ofAxes [.sub "x" 1 2] true, .ofAxes [.sub "x" 2 4] true]
    ∃ cs reached, reshard source target m = .ok cs ∧ applyAll cs source m = .ok reached ∧
      reached.hasSameLayout target m = true ∧ Throughout m (fun s => ∃ x, s.dims[0]? = some x ∧
        isPrefix m [.sub "x" 1 2] x.axes = true) cs source := by
  intro m source target
  have hcommon : commonPrefix m [.sub "x" 1 4, .full "y"] [.sub "x" 1 2] = [.sub "x" 1 2] := by
    decide
  obtain ⟨cs, reached, hreshard, happly, hsame, hkeeps⟩ :=
    isPrefix_commonPrefix_throughout_reshard m (by decide) source target [16, 16] [16, 16] rfl rfl
      rfl (by decide) (by decide) ⟨_, rfl, by decide⟩
  refine ⟨cs, reached, hreshard, happly, hsame, fun before s hbefore hs => ?_⟩
  have hfirst := hkeeps before s hbefore hs 0 _ _ rfl rfl
  rwa [DimSharding.ofAxes, DimSharding.ofAxes, hcommon] at hfirst

end Resharding
end MeshSharding
