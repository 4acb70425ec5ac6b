import MeshSharding.Proofs.Collective.Effect
import MeshSharding.Proofs.Resharding.Partition

/-! Runs of collectives. Each collective of a plan is applied without an error, and the
shardings between them stay valid and keep to the shard counts of source and target. -/
namespace MeshSharding
namespace Resharding

open AxisList Collective

variable {m : Mesh} {source target s t u : TensorSharding} {A B C : Nat → List AxisRef}

/-- A sharding on the way from `source` to `target`, which spells the atoms `A`. -/
structure Stage (m : Mesh) (source target s : TensorSharding) (A : Nat → List AxisRef) : Prop
    extends Spells m s A where
  meshName : s.meshName = source.meshName
  rank : s.rank = source.rank
  replicated : AllValid m s.replicated
  unreduced : AllValid m s.unreduced
  unreduced_eq : mergeAdjacent m s.unreduced = mergeAdjacent m source.unreduced
  apart : Apart m (flat s.rank A ++ s.replicated ++ s.unreduced)
  fits : ∀ (dim : Nat) (d e : DimSharding), source.dims[dim]? = some d →
    target.dims[dim]? = some e →
    totalSize m (A dim) ∣ totalSize m d.axes ∨ totalSize m (A dim) ∣ totalSize m e.axes

/-- What a collective does to the atoms of the first `n` dimensions. -/
def Regroups (m : Mesh) (n : Nat) (A B : Nat → List AxisRef) : Collective → Prop
  | .allGather _ => ∀ dim < n, ∃ x, A dim = B dim ++ x
  | .allSlice _ => ∀ dim < n, ∃ x, B dim = A dim ++ x
  | .allToAll _ => totalSize m (flat n A) = totalSize m (flat n B)
  | .permute _ => totalSize m (flat n A) = totalSize m (flat n B)

/-- Collectives that lead from one stage to another through stages. -/
inductive Run (m : Mesh) (source target : TensorSharding) : List Collective →
    TensorSharding → (Nat → List AxisRef) → TensorSharding → (Nat → List AxisRef) → Prop
  | nil (s : TensorSharding) (A : Nat → List AxisRef) : Run m source target [] s A s A
  | cons {c : Collective} {cs : List Collective} {s t u : TensorSharding}
      {A B C : Nat → List AxisRef} (happly : c.apply s m = .ok t)
      (hstage : Stage m source target t B) (hregroup : Regroups m source.rank A B c)
      (hrest : Run m source target cs t B u C) : Run m source target (c :: cs) s A u C

namespace Run

variable {cs ds : List Collective} {c : Collective}

theorem single (happly : c.apply s m = .ok t) (hstage : Stage m source target t B)
    (hregroup : Regroups m source.rank A B c) : Run m source target [c] s A t B :=
  .cons happly hstage hregroup (.nil t B)

theorem append (h₁ : Run m source target cs s A t B) (h₂ : Run m source target ds t B u C) :
    Run m source target (cs ++ ds) s A u C := by
  induction h₁ with
  | nil => exact h₂
  | cons happly hstage hregroup _ ih => exact .cons happly hstage hregroup (ih h₂)

theorem applyAll (h : Run m source target cs s A t B) :
    Collective.applyAll cs s m = .ok t := by
  induction h with
  | nil => rfl
  | cons happly _ _ _ ih =>
    simpa [Collective.applyAll, happly, bind, Except.bind] using ih

theorem stage (h : Run m source target cs s A t B) (hs : Stage m source target s A) :
    Stage m source target t B := by
  induction h with
  | nil => exact hs
  | cons _ hstage _ _ ih => exact ih hstage

end Run

namespace Stage

/-- The dimensions may change as long as no place is covered more often. -/
theorem withDims (h : Stage m source target s A) {ds : List DimSharding}
    (hlen : ds.length = s.dims.length) (hB : Spells m { s with dims := ds } B)
    (hcover : ∀ name c, coverage m name c (flat s.rank B) ≤ coverage m name c (flat s.rank A))
    (hfits : ∀ (dim : Nat) (d e : DimSharding), source.dims[dim]? = some d →
      target.dims[dim]? = some e →
      totalSize m (B dim) ∣ totalSize m d.axes ∨ totalSize m (B dim) ∣ totalSize m e.axes) :
    Stage m source target { s with dims := ds } B where
  toSpells := hB
  meshName := h.meshName
  rank := hlen.trans h.rank
  replicated := h.replicated
  unreduced := h.unreduced
  unreduced_eq := h.unreduced_eq
  apart := fun name c => by
    have hrank : TensorSharding.rank { s with dims := ds } = s.rank := hlen
    have hle := h.apart name c
    have := hcover name c
    simp only [coverage_append, hrank] at hle ⊢
    omega
  fits := hfits

end Stage

/-- The atoms of a dimension when the moves `done` are made and the moves `todo` are not. -/
def occupied (p : Plan) (done todo : List Move) (dim : Nat) : List AxisRef :=
  (p.dim dim).kept ++ (p.dim dim).gathered ++ leaving todo dim ++ arrived done dim

section occupied

variable {p : Plan} {done todo : List Move} {move : Move} {dim : Nat}

theorem leaving_append (l r : List Move) (dim : Nat) :
    leaving (l ++ r) dim = leaving r dim ++ leaving l dim := by simp [leaving]

theorem arrived_append (l r : List Move) (dim : Nat) :
    arrived (l ++ r) dim = arrived l dim ++ arrived r dim := by simp [arrived]

theorem leaving_eq_nil (h : ∀ move ∈ todo, move.source ≠ dim) : leaving todo dim = [] := by
  rw [leaving, List.filter_eq_nil_iff.2, List.flatMap_nil]
  intro move hmove
  simpa using h move (List.mem_reverse.1 hmove)

theorem arrived_eq_nil (h : ∀ move ∈ done, move.target ≠ dim) : arrived done dim = [] := by
  rw [arrived, List.filter_eq_nil_iff.2, List.flatMap_nil]
  intro move hmove
  simpa using h move hmove

/-- Making the next move takes its atoms to the end of another dimension. -/
theorem shifts_occupied (ho : (done ++ move :: todo).Pairwise fun a b => b.source ≠ a.target)
    (hne : move.source ≠ move.target) :
    Shifts move (occupied p done (move :: todo)) (occupied p (done ++ [move]) todo) := by
  have hleave : ∀ dim, leaving (move :: todo) dim
      = leaving todo dim ++ if move.source = dim then move.axes else [] := by
    intro dim
    by_cases h : move.source = dim <;> simp [leaving, h]
  have harrive : ∀ dim, arrived (done ++ [move]) dim
      = arrived done dim ++ if move.target = dim then move.axes else [] := by
    intro dim
    by_cases h : move.target = dim <;> simp [arrived, h]
  have hnone : arrived done move.source = [] :=
    arrived_eq_nil fun a ha => ((List.pairwise_append.1 ho).2.2 a ha move (by simp)).symm
  constructor
  · simp [occupied, hleave, harrive, hnone, Ne.symm hne]
  · simp [occupied, hleave, harrive, hne]
  · intro k hs ht
    simp [occupied, hleave, harrive, Ne.symm hs, Ne.symm ht]

end occupied

theorem totalSize_dvd_of_perm {l r x : List AxisRef} (h : (l ++ r).Perm x) :
    totalSize m l ∣ totalSize m x := by
  rw [← totalSize_perm h, totalSize_append]
  exact Nat.dvd_mul_right _ _

/-- The atoms are some of the first or of the second list. -/
def IsPart (a b l : List AxisRef) : Prop := (∃ r, (l ++ r).Perm a) ∨ ∃ r, (l ++ r).Perm b

/-- A plan from the atoms `S` of `source` to the atoms `T` of `target`. On the axes of the
atoms that stay or move the bounds divide one another; the others are gathered. -/
structure Route (m : Mesh) (bounds : String → List Nat) (source target : TensorSharding)
    (S T : List (List AxisRef)) (p : Plan) : Prop where
  links : Links S T p
  ladder : ∀ dim, ∀ a ∈ (p.dim dim).kept ++ arrived p.moves dim, Ladder (bounds a.name)
  start : SpellsWithin m bounds source (S.getD · [])
  goal : Spells m target (T.getD · [])
  rank : S.length = source.rank
  replicated : AllValid m source.replicated
  unreduced : AllValid m source.unreduced
  apart : Apart m (flat source.rank (S.getD · []) ++ source.replicated ++ source.unreduced)
  room : Apart m (flat source.rank (T.getD · []) ++ source.unreduced)

namespace Route

variable {bounds : String → List Nat} {S T : List (List AxisRef)} {p : Plan}

theorem stage (h : Route m bounds source target S T p) :
    Stage m source target source (S.getD · []) where
  toSpells := h.start.toSpells
  meshName := rfl
  rank := rfl
  replicated := h.replicated
  unreduced := h.unreduced
  unreduced_eq := rfl
  apart := h.apart
  fits dim d _ hd _ := .inl (by rw [h.start.totalSize_eq hd])

/-- What is a part of the source or of the target of a dimension fits it. -/
theorem fits_of_isPart (h : Route m bounds source target S T p) {dim : Nat} {d e : DimSharding}
    (hd : source.dims[dim]? = some d) (he : target.dims[dim]? = some e) {l : List AxisRef}
    (hl : IsPart (S.getD dim []) (T.getD dim []) l) :
    totalSize m l ∣ totalSize m d.axes ∨ totalSize m l ∣ totalSize m e.axes := by
  rcases hl with ⟨r, hr⟩ | ⟨r, hr⟩
  · exact .inl (h.start.totalSize_eq hd ▸ totalSize_dvd_of_perm hr)
  · exact .inr (h.goal.totalSize_eq he ▸ totalSize_dvd_of_perm hr)

theorem lt_rank (h : Route m bounds source target S T p) {dim : Nat} {d : DimSharding}
    (hd : source.dims[dim]? = some d) : dim < S.length := by
  rw [h.rank]
  exact (List.getElem?_eq_some_iff.1 hd).1

/-- As long as a dimension has received nothing, its atoms are some of the source; from
then on they are leading ones of the target. -/
theorem isPart_occupied (h : Links S T p) {done todo : List Move}
    (hm : p.moves = done ++ todo) {dim : Nat} (hdim : dim < S.length) :
    IsPart (S.getD dim []) (T.getD dim []) (occupied p done todo dim) := by
  have hordered := h.ordered
  have harrives := h.arrives dim hdim
  rw [hm] at hordered harrives
  rw [arrived_append] at harrives
  by_cases harr : arrived done dim = []
  · left
    refine ⟨leaving done dim, ?_⟩
    have hleaves := h.leaves dim hdim
    rw [hm, leaving_append] at hleaves
    simpa [occupied, harr] using hleaves
  · right
    -- nothing leaves any more, and nothing is gathered
    obtain ⟨move, hmove, htarget⟩ : ∃ move ∈ done, move.target = dim := by
      by_contra hno
      push Not at hno
      exact harr (arrived_eq_nil hno)
    have hleave : leaving todo dim = [] := leaving_eq_nil fun b hb => by
      rw [← htarget]
      exact (List.pairwise_append.1 hordered).2.2 move hmove b hb
    have hgather : (p.dim dim).gathered = [] := by
      refine (h.free dim).resolve_right fun hnil => harr ?_
      rw [hnil] at harrives
      exact (List.append_eq_nil_iff.1 harrives).1
    refine ⟨arrived todo dim ++ (p.dim dim).sliced, ?_⟩
    rw [← h.reaches dim hdim, ← harrives, occupied, hleave, hgather]
    simp

theorem occupied_perm (h : Links S T p) (dim : Nat) :
    (occupied p [] p.moves dim).Perm (S.getD dim []) := by
  by_cases hdim : dim < S.length
  · simpa [occupied, arrived] using h.leaves dim hdim
  · have hleave : leaving p.moves dim = [] := leaving_eq_nil fun move hmove heq =>
      hdim (heq ▸ (h.moves move hmove).2.2.1)
    have hnil : p.dim dim = ⟨[], [], [], []⟩ := by
      simp [Plan.dim, List.getD_eq_getElem?_getD,
        List.getElem?_eq_none (h.rank ▸ Nat.not_lt.1 hdim)]
    simp [occupied, hleave, hnil, arrived, List.getD_eq_getElem?_getD,
      List.getElem?_eq_none (Nat.not_lt.1 hdim)]

theorem aligned_getElem? (p : Plan) (dim : Nat) (hdim : dim < p.dims.length) :
    (aligned p)[dim]? = some (occupied p [] p.moves dim) := by
  simp [aligned, occupied, arrived, Plan.dim, List.getD_eq_getElem?_getD, hdim]

theorem mergeAdjacent_occupied (h : Leads S T p)
    (hall : (List.zipWith (equivalent m) (aligned p) S).all id = true) (dim : Nat)
    (hdim : dim < S.length) :
    mergeAdjacent m (occupied p [] p.moves dim) = mergeAdjacent m (S.getD dim []) := by
  have hA := aligned_getElem? p dim (h.rank ▸ hdim)
  have hS : S[dim]? = some (S.getD dim []) := by simp [List.getD_eq_getElem?_getD, hdim]
  have hmem := List.mem_of_getElem? ((List.getElem?_zipWith_eq_some (f := equivalent m)).2
    ⟨_, _, hA, hS, rfl⟩)
  simpa [equivalent] using List.all_eq_true.1 hall _ hmem

theorem axes_zipWith_alignDim {ds : List DimSharding} {dim : Nat}
    {e : DimSharding} (he : (List.zipWith (alignDim m) (aligned p) ds)[dim]? = some e) :
    e.axes = mergeAdjacent m (occupied p [] p.moves dim) := by
  obtain ⟨l, d, hl, hd, rfl⟩ := List.getElem?_zipWith_eq_some.1 he
  have hlt := (List.getElem?_eq_some_iff.1 hl).1
  rw [aligned_getElem? p dim (by simpa [aligned] using hlt)] at hl
  cases hl
  rfl

theorem fits_occupied (h : Route m bounds source target S T p) {done todo : List Move}
    (hm : p.moves = done ++ todo) (dim : Nat) (d e : DimSharding)
    (hd : source.dims[dim]? = some d) (he : target.dims[dim]? = some e) :
    totalSize m (occupied p done todo dim) ∣ totalSize m d.axes ∨
      totalSize m (occupied p done todo dim) ∣ totalSize m e.axes :=
  h.fits_of_isPart hd he (isPart_occupied h.links hm (h.lt_rank hd))

/-- A source whose axes are in the order of the plan spells the atoms in that order. -/
theorem spells_of_equivalent (h : Leads S T p) (hrank : S.length = source.rank)
    (hs : Spells m source (S.getD · []))
    (hatoms : ∀ dim, AllValid m (occupied p [] p.moves dim))
    (hall : (List.zipWith (equivalent m) (aligned p) S).all id = true) :
    Spells m source (occupied p [] p.moves) := by
  refine ⟨hs.axes, hatoms, fun dim d hd => ?_⟩
  have hdim : dim < S.length := hrank ▸ (List.getElem?_eq_some_iff.1 hd).1
  rw [hs.core dim d hd]
  exact (core_eq_of_mergeAdjacent_eq (hatoms dim) (hs.atoms dim)
    (mergeAdjacent_occupied h hall dim hdim)).symm

theorem spells_alignDim (hatoms : ∀ dim, AllValid m (occupied p [] p.moves dim)) :
    Spells m { source with dims := List.zipWith (alignDim m) (aligned p) source.dims }
      (occupied p [] p.moves) := by
  refine ⟨fun dim e he => ?_, hatoms, fun dim e he => ?_⟩
  · rw [axes_zipWith_alignDim he]
    exact (hatoms dim).mergeAdjacent
  · rw [axes_zipWith_alignDim he, core_mergeAdjacent (hatoms dim)]

/-- Where the atoms of the source are in another order than the plan needs, a permute
brings them into it. -/
theorem run_alignment (h : Route m bounds source target S T p) :
    ∃ A ds, Stage m source target source A ∧
      Run m source target (alignment p source S m) source A
        { source with dims := ds } (occupied p [] p.moves) ∧
      SpellsWithin m bounds { source with dims := ds } (occupied p [] p.moves) ∧
      Stage m source target { source with dims := ds } (occupied p [] p.moves) := by
  have hperm := occupied_perm h.links
  have hatoms : ∀ dim, AllValid m (occupied p [] p.moves dim) := fun dim =>
    (h.start.atoms dim).subset (hperm dim).subset
  have hwithin : ∀ dim, Within m bounds (occupied p [] p.moves dim) := fun dim =>
    (h.start.atomsWithin dim).subset (hperm dim).subset
  have hlarge : ∀ dim, ∀ a ∈ occupied p [] p.moves dim, 1 < a.size m := fun dim a ha =>
    h.start.atomsLarge dim a ((hperm dim).subset ha)
  have hflat := flat_perm_of_forall (n := source.rank) fun i _ => hperm i
  unfold alignment
  split
  · rename_i hall
    have hspells : SpellsWithin m bounds source (occupied p [] p.moves) :=
      ⟨spells_of_equivalent h.links.toLeads h.rank h.start.toSpells hatoms hall,
        h.start.axesFit, hwithin, hlarge⟩
    have hstage := h.stage.withDims rfl hspells.toSpells
      (fun name c => (coverage_perm hflat name c).le) (h.fits_occupied rfl)
    exact ⟨_, source.dims, hstage, .nil _ _, hspells, hstage⟩
  · let ds := List.zipWith (alignDim m) (aligned p) source.dims
    have hspells : SpellsWithin m bounds { source with dims := ds } (occupied p [] p.moves) :=
      ⟨spells_alignDim hatoms, fun dim e he => by
        rw [axes_zipWith_alignDim he]
        exact ⟨(hwithin dim).mergeAdjacent, seamless_mergeAdjacent (hlarge dim)⟩,
        hwithin, hlarge⟩
    have hrank : TensorSharding.rank { source with dims := ds } = source.rank := by
      simp only [ds, TensorSharding.rank, aligned, List.length_zipWith, List.length_mapIdx,
        h.links.rank, h.rank, Nat.min_self]
    have hsizes := hspells.shardedSizes_eq h.start.toSpells hrank
      fun dim _ => totalSize_perm (hperm dim)
    have happly : (Collective.permute { source with dims := ds }).apply source m
        = .ok { source with dims := ds } := by
      simp [apply, hrank, hsizes, equivalent]
    have hstage := h.stage.withDims hrank hspells.toSpells
      (fun name c => (coverage_perm hflat name c).le) (h.fits_occupied rfl)
    exact ⟨_, ds, h.stage, .single happly hstage (totalSize_perm hflat.symm), hspells, hstage⟩

theorem ladder_move (h : Route m bounds source target S T p) {move : Move}
    (hmove : move ∈ p.moves) : ∀ a ∈ move.axes, Ladder (bounds a.name) := fun a ha =>
  h.ladder move.target a <| List.mem_append_right _ <|
    List.mem_flatMap.2 ⟨move, List.mem_filter.2 ⟨hmove, by simp⟩, ha⟩

theorem batch_spells (h : Route m bounds source target S T p) {c : Collective}
    {done batch todo : List Move} (hm : p.moves = done ++ (batch ++ todo))
    (hrank : s.rank = source.rank)
    (hs : SpellsWithin m bounds s (occupied p done (batch ++ todo))) :
    ∃ ds, (batch.map fun move => { move with axes := mergeAdjacent m move.axes }).foldlM
        (c.applyMove m) s = .ok { s with dims := ds } ∧ ds.length = s.dims.length ∧
      SpellsWithin m bounds { s with dims := ds } (occupied p (done ++ batch) todo) ∧
      (flat source.rank (occupied p done (batch ++ todo))).Perm
        (flat source.rank (occupied p (done ++ batch) todo)) := by
  induction batch generalizing done s with
  | nil => exact ⟨s.dims, rfl, rfl, by simpa using hs, by simp⟩
  | cons move batch ih =>
    have hmem : move ∈ p.moves := by simp [hm]
    obtain ⟨hnil, hne, hsource, htarget⟩ := h.links.moves move hmem
    rw [h.rank] at hsource htarget
    have hshifts : Shifts move _ (occupied p (done ++ [move]) (batch ++ todo)) :=
      shifts_occupied (hm ▸ h.links.ordered) hne
    obtain ⟨ds, happly, hlen, hds⟩ := applyMove_spells (c := c) hs (h.ladder_move hmem)
      (hrank ▸ hsource) (hrank ▸ htarget) hne hnil hshifts
    have hm' : p.moves = done ++ [move] ++ (batch ++ todo) := by simp [hm]
    obtain ⟨ds', hfold, hlen', hds', hperm⟩ := ih hm'
      (s := { s with dims := ds }) (hlen.trans hrank) hds
    refine ⟨ds', ?_, hlen'.trans hlen, by simpa using hds', ?_⟩
    · simpa [happly, bind, Except.bind] using hfold
    · exact (hshifts.flat_perm hsource htarget hne).trans (by simpa using hperm)

theorem flatten_batchesFrom (batch moves : List Move) :
    (batchesFrom batch moves).flatten = batch ++ moves := by
  fun_induction batchesFrom batch moves with
  | case1 batch h => simp_all
  | case2 batch h => simp
  | case3 batch move rest h ih => simp [ih]
  | case4 batch move rest h ih => simp [ih]

/-- The exchanges make all moves. -/
theorem run_exchanges (h : Route m bounds source target S T p) {done : List Move}
    {batches : List (List Move)} (hm : p.moves = done ++ batches.flatten)
    (hs : SpellsWithin m bounds s (occupied p done batches.flatten))
    (hstage : Stage m source target s (occupied p done batches.flatten)) :
    ∃ ds, Run m source target (batches.map fun batch => .allToAll
        (batch.map fun move => { move with axes := mergeAdjacent m move.axes })) s
        (occupied p done batches.flatten) { s with dims := ds } (occupied p p.moves []) ∧
      SpellsWithin m bounds { s with dims := ds } (occupied p p.moves []) ∧
      Stage m source target { s with dims := ds } (occupied p p.moves []) := by
  induction batches generalizing done s with
  | nil =>
    obtain rfl : p.moves = done := by simpa using hm
    exact ⟨s.dims, .nil _ _, hs, hstage⟩
  | cons batch batches ih =>
    obtain ⟨ds, happly, hlen, hds, hperm⟩ := h.batch_spells
      (c := .allToAll (batch.map fun move => { move with axes := mergeAdjacent m move.axes }))
      hm hstage.rank hs
    have hm' : p.moves = done ++ batch ++ batches.flatten := by simpa using hm
    have hnext := hstage.withDims hlen hds.toSpells
      (fun name c => (coverage_perm (hstage.rank ▸ hperm.symm) name c).le) (h.fits_occupied hm')
    obtain ⟨ds', hrun, hspells', hstage'⟩ := ih hm' hds hnext
    exact ⟨ds', .cons happly hnext (totalSize_perm hperm) hrun, hspells', hstage'⟩

theorem getD_map_dims (p : Plan) (f : DimPlan → List AxisRef)
    (hf : f ⟨[], [], [], []⟩ = []) (dim : Nat) :
    (p.dims.map f).getD dim [] = f (p.dim dim) := by
  simp only [Plan.dim, List.getD_eq_getElem?_getD, List.getElem?_map]
  cases p.dims[dim]? <;> simp [hf]

/-- What no dimension of a plan has is missing beyond them too. -/
theorem part_eq_nil (p : Plan) (f : DimPlan → List AxisRef) (hf : f ⟨[], [], [], []⟩ = [])
    (hnil : ∀ d ∈ p.dims, f d = []) (dim : Nat) : f (p.dim dim) = [] := by
  rw [← getD_map_dims p f hf, List.getD_eq_getElem?_getD, List.getElem?_map]
  cases hd : p.dims[dim]? with
  | none => rfl
  | some d => simpa using hnil d (List.mem_of_getElem? hd)

theorem length_parts (h : Route m bounds source target S T p) (hs : Stage m source target s A)
    (f : DimPlan → List AxisRef) : (p.dims.map f).length = s.rank := by
  rw [List.length_map, h.links.rank, h.rank, hs.rank]

theorem flat_dims (p : Plan) (f : DimPlan → List AxisRef) (hf : f ⟨[], [], [], []⟩ = []) :
    flat p.dims.length (fun dim => f (p.dim dim)) = p.dims.flatMap f := by
  have := flat_getD (p.dims.map f)
  rw [List.length_map] at this
  rw [List.flatMap_def, ← this]
  exact flat_congr fun i _ => (getD_map_dims p f hf i).symm

theorem sliced_valid (h : Leads S T p) (hT : ∀ dim, AllValid m (T.getD dim [])) :
    AllValid m (p.dims.map (·.sliced)).flatten := by
  intro a ha
  obtain ⟨_, hx, hax⟩ := List.mem_flatten.1 ha
  obtain ⟨d, hd, rfl⟩ := List.mem_map.1 hx
  obtain ⟨dim, hdim⟩ := List.mem_iff_getElem?.1 hd
  have hlt : dim < S.length := h.rank ▸ (List.getElem?_eq_some_iff.1 hdim).1
  have hplan : p.dim dim = d := by simp [Plan.dim, List.getD_eq_getElem?_getD, hdim]
  refine hT dim a ?_
  rw [← h.reaches dim hlt, hplan]
  simp [hax]

/-- A gather that gathers anything takes what is gathered off the dimensions. -/
theorem run_gather (h : Route m bounds source target S T p)
    (hs : Stage m source target s A) (hAB : ∀ dim, A dim = B dim ++ (p.dim dim).gathered)
    (hw : ∀ dim, (p.dim dim).gathered = [] ∨
      B dim = (p.dim dim).kept ++ arrived p.moves dim ∧ FitsAt m bounds s dim)
    (hpart : ∀ dim < S.length, IsPart (S.getD dim []) (T.getD dim []) (B dim)) :
    ∃ t, Run m source target ([Collective.allGather
        (p.dims.map fun d => mergeAdjacent m d.gathered)].filter fun c => !c.isEmpty) s A t B ∧
      Stage m source target t B := by
  have hget := getD_map_dims p (·.gathered) rfl
  by_cases hnil : ∀ d ∈ p.dims, d.gathered = []
  · have hempty : (Collective.allGather
        (p.dims.map fun d => mergeAdjacent m d.gathered)).isEmpty = true := by
      simpa [isEmpty] using hnil
    have hgathered := part_eq_nil p (·.gathered) rfl hnil
    obtain rfl : A = B := funext fun dim => by simp [hAB dim, hgathered dim]
    exact ⟨s, by simpa [hempty] using Run.nil s A, hs⟩
  · have hempty : (Collective.allGather
        (p.dims.map fun d => mergeAdjacent m d.gathered)).isEmpty = false := by
      simpa [isEmpty] using hnil
    have hmap : (p.dims.map fun d => mergeAdjacent m d.gathered)
        = (p.dims.map (·.gathered)).map (mergeAdjacent m) := by simp
    have hlen := h.length_parts hs (·.gathered)
    obtain ⟨ds, happly, hds, hspells⟩ := allGather_spells bounds hs.toSpells hlen
      (fun dim => by rw [hget, hAB])
      (fun dim a ha => h.start.atomsLarge dim a (h.links.gathers dim (hget dim ▸ ha)))
      (fun dim a ha b hb _ => by
        rw [hget] at hb
        rcases hw dim with hnil | ⟨hB, -⟩
        · rw [hnil] at hb
          cases hb
        · exact h.ladder dim a (hB ▸ ha))
      fun dim => (hw dim).imp (fun hnil => by rw [hget, hnil]) fun hfit => ⟨hfit.2, by
        rw [hget]
        exact (h.start.atomsWithin dim).subset (h.links.gathers dim)⟩
    have hsub : ∀ dim, (B dim).Sublist (A dim) := fun dim => by
      rw [hAB]
      exact List.sublist_append_left _ _
    have hstage := hs.withDims hds hspells
      (fun name c => coverage_sublist (flat_sublist hsub) name c)
      fun dim d e hd he => h.fits_of_isPart hd he (hpart dim (h.lt_rank hd))
    refine ⟨_, ?_, hstage⟩
    rw [List.filter_singleton, hempty, hmap]
    exact .single happly hstage fun dim _ => ⟨_, hAB dim⟩

/-- A slice that slices anything appends what is sliced to the dimensions. -/
theorem run_slice (h : Route m bounds source target S T p)
    (hs : Stage m source target s A) (hAB : ∀ dim, B dim = A dim ++ (p.dim dim).sliced)
    (hroom : Apart m (flat source.rank B ++ s.unreduced))
    (hpart : ∀ dim < S.length, IsPart (S.getD dim []) (T.getD dim []) (B dim)) :
    ∃ t, Run m source target ([Collective.allSlice
        (p.dims.map fun d => mergeAdjacent m d.sliced)].filter fun c => !c.isEmpty) s A t B ∧
      Stage m source target t B ∧
      ∀ dim, (p.dim dim).sliced = [] → FitsAt m bounds s dim → FitsAt m bounds t dim := by
  have hget := getD_map_dims p (·.sliced) rfl
  by_cases hnil : ∀ d ∈ p.dims, d.sliced = []
  · have hempty : (Collective.allSlice
        (p.dims.map fun d => mergeAdjacent m d.sliced)).isEmpty = true := by
      simpa [isEmpty] using hnil
    have hsliced := part_eq_nil p (·.sliced) rfl hnil
    obtain rfl : A = B := funext fun dim => by simp [hAB dim, hsliced dim]
    exact ⟨s, by simpa [hempty] using Run.nil s A, hs, fun _ _ hfit => hfit⟩
  · have hempty : (Collective.allSlice
        (p.dims.map fun d => mergeAdjacent m d.sliced)).isEmpty = false := by
      simpa [isEmpty] using hnil
    have hmap : (p.dims.map fun d => mergeAdjacent m d.sliced)
        = (p.dims.map (·.sliced)).map (mergeAdjacent m) := by simp
    have hlen := h.length_parts hs (·.sliced)
    obtain ⟨ds, rs, happly, hds, hrs, hspells, hapart, hfit⟩ :=
      allSlice_spells bounds hs.toSpells hlen (fun dim => by rw [hget, hAB])
        (sliced_valid h.links.toLeads h.goal.atoms) hs.replicated hs.unreduced hs.apart
        (hs.rank ▸ hroom)
    have hstage : Stage m source target { s with dims := ds, replicated := rs } B :=
      { toSpells := hspells
        meshName := hs.meshName
        rank := hds.trans hs.rank
        replicated := hs.replicated.subset hrs
        unreduced := hs.unreduced
        unreduced_eq := hs.unreduced_eq
        apart := by
          rw [show TensorSharding.rank { s with dims := ds, replicated := rs } = s.rank from hds]
          exact hapart
        fits := fun dim d e hd he => h.fits_of_isPart hd he (hpart dim (h.lt_rank hd)) }
    refine ⟨_, ?_, hstage, fun dim hdim => hfit dim (by rw [hget, hdim])⟩
    rw [List.filter_singleton, hempty, hmap]
    exact .single happly hstage fun dim _ => ⟨_, hAB dim⟩

/-- The atoms that a dimension holds before it slices and after it gathered. -/
def held (p : Plan) (dim : Nat) : List AxisRef := (p.dim dim).kept ++ arrived p.moves dim

/-- The atoms of a dimension at the end of a plan. -/
def reached (p : Plan) (dim : Nat) : List AxisRef := held p dim ++ (p.dim dim).sliced

theorem reached_eq (h : Leads S T p) {dim : Nat} (hdim : dim < S.length) :
    reached p dim = T.getD dim [] := by
  rw [reached, held, h.arrives dim hdim, h.reaches dim hdim]

theorem occupied_eq (h : Leads S T p) (dim : Nat) :
    occupied p p.moves [] dim = held p dim ++ (p.dim dim).gathered := by
  have hor : (p.dim dim).gathered = [] ∨ arrived p.moves dim = [] := by
    by_cases hdim : dim < S.length
    · rw [h.arrives dim hdim]
      exact h.free dim
    · left
      simp [Plan.dim, List.getD_eq_getElem?_getD,
        List.getElem?_eq_none (h.rank ▸ Nat.not_lt.1 hdim)]
  rcases hor with hnil | hnil <;> simp [occupied, held, leaving, hnil]

theorem isPart_held (h : Links S T p) {dim : Nat} (hdim : dim < S.length) :
    IsPart (S.getD dim []) (T.getD dim []) (held p dim) := by
  refine .inr ⟨(p.dim dim).sliced, ?_⟩
  rw [← reached_eq h.toLeads hdim, reached]

theorem isPart_reached (h : Links S T p) {dim : Nat} (hdim : dim < S.length) :
    IsPart (S.getD dim []) (T.getD dim []) (reached p dim) :=
  .inr ⟨[], by rw [List.append_nil, reached_eq h.toLeads hdim]⟩

/-- The atoms of the target leave the unreduced axes free. -/
theorem room_reached (h : Route m bounds source target S T p)
    (hs : Stage m source target s A) :
    Apart m (flat source.rank (reached p) ++ s.unreduced) := by
  intro name c
  have hroom := h.room name c
  have hflat : flat source.rank (reached p) = flat source.rank (T.getD · []) :=
    flat_congr fun i hi => reached_eq h.links.toLeads (h.rank ▸ hi)
  have hunreduced : coverage m name c s.unreduced = coverage m name c source.unreduced := by
    rw [← coverage_mergeAdjacent hs.unreduced, hs.unreduced_eq,
      coverage_mergeAdjacent h.unreduced]
  simpa only [coverage_append, hflat, hunreduced] using hroom

section sliceFirst

theorem gathered_or_sliced (hg : gathersFirst p m = false) (dim : Nat) :
    (p.dim dim).gathered = [] ∨ (p.dim dim).sliced = [] := by
  simp only [gathersFirst, Bool.or_eq_false_iff] at hg
  cases hd : p.dims[dim]? with
  | none => simp [Plan.dim, List.getD_eq_getElem?_getD, hd]
  | some d =>
    have := List.any_eq_false.1 hg.1 d (List.mem_of_getElem? hd)
    have hplan : p.dim dim = d := by simp [Plan.dim, List.getD_eq_getElem?_getD, hd]
    rw [hplan]
    simpa [Classical.or_iff_not_imp_left] using this

/-- No place of an axis is both gathered and sliced. -/
theorem not_gathered_and_sliced (h : Route m bounds source target S T p)
    (hg : gathersFirst p m = false) (name : String) (c : Nat) :
    coverage m name c (p.dims.flatMap (·.gathered)) = 0 ∨
      coverage m name c (p.dims.flatMap (·.sliced)) = 0 := by
  simp only [gathersFirst, Bool.or_eq_false_iff] at hg
  by_contra hboth
  rw [not_or] at hboth
  have hgathered : AllValid m (p.dims.flatMap (·.gathered)) := by
    intro a ha
    rw [← flat_dims p (·.gathered) rfl] at ha
    obtain ⟨dim, _, hdim⟩ := mem_flat.1 ha
    exact h.start.atoms dim a (h.links.gathers dim hdim)
  have hsliced : AllValid m (p.dims.flatMap (·.sliced)) := by
    rw [List.flatMap_def]
    exact sliced_valid h.links.toLeads h.goal.atoms
  obtain ⟨a, ha, hcov⟩ : ∃ a ∈ p.dims.flatMap (·.sliced), a.covers m name c = true := by
    by_contra hno
    push Not at hno
    exact hboth.2 (coverage_eq_zero_iff.2 fun a ha => by simpa using hno a ha)
  have hnot := List.any_eq_false.1 hg.2 a ha
  simp only [overlapsAny, Bool.not_eq_true, List.any_eq_false] at hnot
  exact hboth.1 ((not_overlaps_iff (hsliced a ha) hgathered).1
    (fun b hb => by simpa using hnot b hb) name c hcov)

/-- Where nothing is gathered that is sliced, the slice has room before the gather. -/
theorem room_sliceFirst (h : Route m bounds source target S T p)
    (hs : Stage m source target s (occupied p p.moves []))
    (hg : gathersFirst p m = false) :
    Apart m (flat source.rank (fun dim => occupied p p.moves [] dim ++ (p.dim dim).sliced)
      ++ s.unreduced) := by
  intro name c
  have hbefore := hs.apart name c
  have hafter := h.room_reached hs name c
  have hrank : p.dims.length = source.rank := h.links.rank.trans h.rank
  have hocc : coverage m name c (flat source.rank (occupied p p.moves []))
      = coverage m name c (flat source.rank (held p))
        + coverage m name c (p.dims.flatMap (·.gathered)) := by
    rw [show occupied p p.moves [] = fun dim => held p dim ++ (p.dim dim).gathered from
      funext (occupied_eq h.links.toLeads), coverage_perm (flat_append _ _ _), coverage_append,
      ← flat_dims p (·.gathered) rfl, hrank]
  have hsliced : ∀ X : Nat → List AxisRef,
      coverage m name c (flat source.rank fun dim => X dim ++ (p.dim dim).sliced)
      = coverage m name c (flat source.rank X)
        + coverage m name c (p.dims.flatMap (·.sliced)) := by
    intro X
    rw [coverage_perm (flat_append _ _ _), coverage_append, ← flat_dims p (·.sliced) rfl, hrank]
  have hfree := h.not_gathered_and_sliced hg name c
  have hreach : coverage m name c (flat source.rank (reached p)) = _ := hsliced (held p)
  rw [hs.rank] at hbefore
  simp only [coverage_append, hsliced, hocc, hreach] at hbefore hafter ⊢
  omega

end sliceFirst

/-- Gather and slice, in either order, lead to the end of the plan. -/
theorem run_gatherAndSlice (h : Route m bounds source target S T p)
    (hwithin : SpellsWithin m bounds s (occupied p p.moves []))
    (hs : Stage m source target s (occupied p p.moves [])) :
    ∃ t, Run m source target (gatherAndSlice p m) s (occupied p p.moves []) t (reached p) ∧
      Stage m source target t (reached p) := by
  unfold gatherAndSlice
  cases hg : gathersFirst p m with
  | true =>
    obtain ⟨t, hgather, ht⟩ := h.run_gather hs (occupied_eq h.links.toLeads)
      (fun dim => .inr ⟨rfl, hwithin.axesFit dim⟩) fun dim hdim => isPart_held h.links hdim
    obtain ⟨u, hslice, hu, _⟩ := h.run_slice (B := reached p) ht (fun _ => rfl)
      (h.room_reached ht) fun dim hdim => isPart_reached h.links hdim
    refine ⟨u, ?_, hu⟩
    dsimp only
    rw [if_pos rfl, ← List.singleton_append, List.filter_append]
    exact hgather.append hslice
  | false =>
    obtain ⟨t, hslice, ht, hkept⟩ := h.run_slice
      (B := fun dim => occupied p p.moves [] dim ++ (p.dim dim).sliced) hs (fun _ => rfl)
      (h.room_sliceFirst hs hg) fun dim hdim => by
        rcases gathered_or_sliced hg dim with hnil | hnil
        · rw [occupied_eq h.links.toLeads, hnil, List.append_nil]
          exact isPart_reached h.links hdim
        · rw [hnil, List.append_nil]
          exact isPart_occupied h.links (by simp) hdim
    obtain ⟨u, hgather, hu⟩ := h.run_gather (B := reached p) ht
      (fun dim => by
        rw [occupied_eq h.links.toLeads, reached]
        rcases gathered_or_sliced hg dim with hnil | hnil <;> simp [hnil])
      (fun dim => (gathered_or_sliced hg dim).imp_right fun hnil =>
        ⟨by rw [reached, hnil, List.append_nil, held], hkept dim hnil (hwithin.axesFit dim)⟩)
      fun dim hdim => isPart_reached h.links hdim
    refine ⟨u, ?_, hu⟩
    dsimp only
    rw [if_neg Bool.false_ne_true, ← List.singleton_append, List.filter_append]
    exact hslice.append hgather

/-- The collectives of a plan lead from its source to the atoms of its target. -/
theorem run_collectives (h : Route m bounds source target S T p) :
    ∃ A t, Stage m source target source A ∧
      Run m source target (collectives p source S m) source A t (reached p) := by
  obtain ⟨A, ds, hstart, halign, hds, hstage⟩ := h.run_alignment
  have hm : p.moves = [] ++ (batchesFrom [] p.moves).flatten := by
    rw [flatten_batchesFrom]
    rfl
  have hbatches := flatten_batchesFrom [] p.moves
  rw [List.nil_append] at hbatches
  obtain ⟨ds', hexchange, hds', hstage'⟩ := h.run_exchanges hm (hbatches.symm ▸ hds)
    (hbatches.symm ▸ hstage)
  rw [hbatches] at hexchange
  obtain ⟨t, hend, _⟩ := h.run_gatherAndSlice hds' hstage'
  exact ⟨A, t, hstart, (halign.append hexchange).append hend⟩

end Route

end Resharding
end MeshSharding
