import MeshSharding.Proofs.Resharding.Plan

/-! A plan as a partition of atoms. In each dimension what is kept, gathered and moved out
is the source, what is kept, moved in and sliced is the target, and a dimension that
gathers receives nothing. -/
namespace MeshSharding
namespace Resharding

namespace Plan

/-- What happens in a dimension. -/
def dim (p : Plan) (i : Nat) : DimPlan := p.dims.getD i ⟨[], [], [], []⟩

end Plan

/-- The atoms that moves bring into a dimension. -/
def arrived (moves : List Move) (dim : Nat) : List AxisRef :=
  (moves.filter fun move => move.target = dim).flatMap (·.axes)

/-- No atom is twice in the source or in the target, and atoms that can move are in the
source of their dimension. -/
structure Proper (t : Task) : Prop where
  source_nodup : (t.dims.flatMap (·.source)).Nodup
  target_nodup : (t.dims.flatMap (·.target)).Nodup
  movable : ∀ a dim, (a, dim) ∈ t.movable → ∃ d, t.dims[dim]? = some d ∧ a ∈ d.source

section ofAtoms

variable {opaqueAxes : List String} {source target : List (List AxisRef)}

theorem getElem?_ofAtoms {dim : Nat} (hs : dim < source.length) (ht : dim < target.length) :
    (Task.ofAtoms opaqueAxes source target).dims[dim]?
      = some (DimTask.ofAtoms opaqueAxes source[dim] target[dim]) := by
  have hlen : dim < (Task.ofAtoms opaqueAxes source target).dims.length := by
    simp only [Task.ofAtoms, List.length_zipWith]
    omega
  rw [List.getElem?_eq_getElem hlen]
  simp [Task.ofAtoms]

theorem ofAtoms_sublist :
    ((Task.ofAtoms opaqueAxes source target).dims.flatMap (·.source)).Sublist source.flatten ∧
    ((Task.ofAtoms opaqueAxes source target).dims.flatMap (·.target)).Sublist
      target.flatten := by
  simp only [Task.ofAtoms]
  induction source generalizing target with
  | nil => simp
  | cons as source ih =>
    cases target with
    | nil => simp
    | cons bs target =>
      have hs := DimTask.settled_append_source opaqueAxes as bs
      have ht := DimTask.settled_append_target opaqueAxes as bs
      simp only [List.zipWith_cons_cons, List.flatMap_cons, List.flatten_cons]
      constructor
      · refine List.Sublist.append ?_ ih.1
        conv_rhs => rw [← hs]
        exact List.sublist_append_right _ _
      · refine List.Sublist.append ?_ ih.2
        conv_rhs => rw [← ht]
        exact List.sublist_append_right _ _

/-- Atoms move out of the dimensions that they are in. -/
theorem movable_ofAtoms {a : AxisRef} {dim : Nat}
    (h : (a, dim) ∈ (Task.ofAtoms opaqueAxes source target).movable) :
    ∃ d, (Task.ofAtoms opaqueAxes source target).dims[dim]? = some d ∧ a ∈ d.source := by
  obtain ⟨i, d, hd, hx⟩ := mem_flatten_mapIdx.1 h
  obtain ⟨b, hb, heq⟩ := List.mem_map.1 hx
  cases heq
  exact ⟨d, hd, (List.mem_filter.1 hb).1⟩

theorem proper_ofAtoms (hs : source.flatten.Nodup) (ht : target.flatten.Nodup) :
    Proper (Task.ofAtoms opaqueAxes source target) where
  source_nodup := ofAtoms_sublist.1.nodup hs
  target_nodup := ofAtoms_sublist.2.nodup ht
  movable _ _ h := movable_ofAtoms h

end ofAtoms

section partition

variable {t : Task} {barred : List AxisRef} {dim : Nat} {d : DimTask}

theorem mem_source_of_origin (ht : Proper t) (hd : t.dims[dim]? = some d) {a : AxisRef}
    (h : t.origin? a = some dim) : a ∈ d.source := by
  obtain ⟨d', hd', ha⟩ := ht.movable a dim (movable_of_origin h)
  rw [hd] at hd'
  cases hd'
  exact ha

/-- An atom of the source has no other dimension to come from. -/
theorem eq_of_origin (ht : Proper t) (hd : t.dims[dim]? = some d) {a : AxisRef} {i : Nat}
    (ha : a ∈ d.source) (h : t.origin? a = some i) : i = dim := by
  obtain ⟨d', hd', ha'⟩ := ht.movable a i (movable_of_origin h)
  exact index_unique ht.source_nodup hd' hd ha' ha

theorem incoming_sublist (t : Task) (barred : List AxisRef) (dim : Nat) (d : DimTask) :
    (incoming t barred dim d).Sublist d.target := by
  rw [← staying_append_incoming t barred dim d]
  exact (List.sublist_append_left _ _).trans (List.sublist_append_right _ _)

theorem leaving_perm {moves moves' : List Move} (h : moves.Perm moves') (dim : Nat) :
    (leaving moves dim).Perm ((moves'.filter fun move => move.source = dim).flatMap (·.axes)) :=
  ((((List.reverse_perm moves).trans h)).filter _).flatMap_right _

theorem mem_leaving_movesOf {a : AxisRef} :
    a ∈ leaving (movesOf t barred) dim ↔
      ∃ i d, t.dims[i]? = some d ∧ (a, dim) ∈ (arrivals t barred i d).1 := by
  rw [(leaving_perm (List.Perm.refl _) dim).mem_iff, flatMap_axes_filter_source,
    movesOf_flatMap_pairs, ← mem_flatten_mapIdx (f := fun i d => (arrivals t barred i d).1)]
  simp

theorem nodup_leaving_movesOf (ht : Proper t) : (leaving (movesOf t barred) dim).Nodup := by
  refine (leaving_perm (List.Perm.refl _) dim).nodup_iff.2 ?_
  rw [flatMap_axes_filter_source, movesOf_flatMap_pairs]
  refine (List.filter_sublist.map _).nodup ?_
  rw [List.map_flatten]
  have hmap : (t.dims.mapIdx fun dim d => (arrivals t barred dim d).1).map (List.map (·.1))
      = t.dims.mapIdx (incoming t barred) := by
    refine List.ext_getElem (by simp) fun i _ _ => ?_
    simp [incoming]
  rw [hmap]
  exact (flatten_mapIdx_sublist fun i d _ => incoming_sublist t barred i d).nodup
    ht.target_nodup

/-- What moves out of a dimension is not among what stays there. -/
theorem of_mem_leaving_movesOf (ht : Proper t) (hd : t.dims[dim]? = some d) {a : AxisRef}
    (ha : a ∈ leaving (movesOf t barred) dim) :
    a ∈ arrivingAtoms t barred ∧ a ∉ staying t dim d ∧ a ∈ d.source := by
  obtain ⟨i, d', hd', hx⟩ := mem_leaving_movesOf.1 ha
  obtain ⟨ho, hne, _⟩ := mem_splitIncoming hx
  have hin : a ∈ incoming t barred i d' := List.mem_map.2 ⟨_, hx, rfl⟩
  have hstay : (staying t dim d).Sublist d.target := List.takeWhile_sublist _
  refine ⟨mem_arrivingAtoms.2 ⟨i, d', hd', hin⟩, fun hs => hne ?_,
    mem_source_of_origin ht hd ho⟩
  exact (index_unique ht.target_nodup hd' hd ((incoming_sublist t barred i d').subset hin)
    (hstay.subset hs)).symm

theorem mem_source_iff (ht : Proper t) (hd : t.dims[dim]? = some d) {a : AxisRef} :
    ((a ∈ staying t dim d ∨ a ∈ d.source ∧ ¬ a ∈ stayingAtoms t ∧ ¬ a ∈ arrivingAtoms t barred) ∨
      a ∈ leaving (movesOf t barred) dim) ↔ a ∈ d.source := by
  constructor
  · rintro ((h | h) | h)
    · exact mem_source_of_origin ht hd (origin_of_mem_staying h)
    · exact h.1
    · exact (of_mem_leaving_movesOf ht hd h).2.2
  · intro ha
    by_cases hs : a ∈ stayingAtoms t
    · obtain ⟨i, d', hd', hst⟩ := mem_stayingAtoms.1 hs
      obtain rfl := eq_of_origin ht hd ha (origin_of_mem_staying hst)
      rw [hd] at hd'
      cases hd'
      exact .inl (.inl hst)
    · by_cases harr : a ∈ arrivingAtoms t barred
      · obtain ⟨i, d', hd', hin⟩ := mem_arrivingAtoms.1 harr
        obtain ⟨x, hx, rfl⟩ := List.mem_map.1 hin
        obtain ⟨ho, _, _⟩ := mem_splitIncoming hx
        obtain rfl := eq_of_origin ht hd ha ho
        exact .inr (mem_leaving_movesOf.2 ⟨i, d', hd', hx⟩)
      · exact .inl (.inr ⟨ha, hs, harr⟩)

/-- The source of a dimension is what stays, what is gathered and what moves out. -/
theorem source_perm (barred : List AxisRef) (ht : Proper t) (hd : t.dims[dim]? = some d) :
    (staying t dim d ++ (d.source.filter
        fun a => a ∉ stayingAtoms t ++ arrivingAtoms t barred)
      ++ leaving (movesOf t barred) dim).Perm d.source := by
  have hmem : d ∈ t.dims := List.mem_of_getElem? hd
  have hsource : d.source.Nodup := (List.nodup_flatMap.1 ht.source_nodup).1 d hmem
  have htarget : d.target.Nodup := (List.nodup_flatMap.1 ht.target_nodup).1 d hmem
  have hstay : (staying t dim d).Sublist d.target := List.takeWhile_sublist _
  refine (List.perm_ext_iff_of_nodup ?_ hsource).2 fun a => ?_
  · refine List.nodup_append.2 ⟨List.nodup_append.2 ⟨hstay.nodup htarget, hsource.filter _, ?_⟩,
      nodup_leaving_movesOf ht, ?_⟩
    · rintro a ha b hb rfl
      have := (List.mem_filter.1 hb).2
      simp only [List.mem_append, decide_eq_true_eq, not_or] at this
      exact this.1 (mem_stayingAtoms.2 ⟨dim, d, hd, ha⟩)
    · rintro a ha b hb rfl
      obtain ⟨harr, hns, _⟩ := of_mem_leaving_movesOf ht hd hb
      rcases List.mem_append.1 ha with ha | ha
      · exact hns ha
      · have := (List.mem_filter.1 ha).2
        simp only [List.mem_append, decide_eq_true_eq, not_or] at this
        exact this.2 harr
  · simp only [List.mem_append, List.mem_filter, decide_eq_true_eq, not_or]
    exact mem_source_iff ht hd

theorem arrived_movesOf (hd : t.dims[dim]? = some d) :
    arrived (movesOf t barred) dim = incoming t barred dim d := by
  have hfilter : (movesOf t barred).filter (fun move => move.target = dim)
      = groupMoves dim (arrivals t barred dim d).1 := by
    refine filter_flatten_mapIdx hd fun j d' move _ hm => ?_
    rw [decide_eq_true_eq, (mem_groupMoves hm).1]
  rw [arrived, hfilter, incoming]
  conv_rhs => rw [← groupMoves_flatMap_pairs dim (arrivals t barred dim d).1, List.map_flatMap]
  simp [Move.pairs, Function.comp_def]

end partition

section found

variable {t : Task} {p : Plan} {barred : List AxisRef} {order : List Nat} {dim : Nat}
  {d : DimTask}

theorem Found.dim_eq (h : Found t p barred order) (hd : t.dims[dim]? = some d) :
    p.dim dim = classifyDim t barred (stayingAtoms t ++ arrivingAtoms t barred) dim d := by
  simp [Plan.dim, h.dims, classify, List.getD_eq_getElem?_getD, hd]

theorem Found.moves_perm (h : Found t p barred order) : p.moves.Perm (movesOf t barred) := by
  rw [h.moves]
  exact perm_of_orderMoves h.orders

theorem Found.leaves (h : Found t p barred order) (ht : Proper t)
    (hd : t.dims[dim]? = some d) :
    ((p.dim dim).kept ++ (p.dim dim).gathered ++ leaving p.moves dim).Perm
      (d.settled ++ d.source) := by
  have hleave : (leaving p.moves dim).Perm (leaving (movesOf t barred) dim) :=
    (leaving_perm h.moves_perm dim).trans (leaving_perm (List.Perm.refl _) dim).symm
  rw [h.dim_eq hd]
  simp only [classifyDim, List.append_assoc]
  refine List.Perm.append_left _ ?_
  refine List.Perm.trans ?_ (source_perm barred ht hd)
  rw [List.append_assoc]
  exact (hleave.append_left _).append_left _

/-- In an unobstructed dimension what is gathered is at its end. -/
theorem Found.free (h : Found t p barred order) (dim : Nat) :
    (p.dim dim).gathered = [] ∨ (p.dim dim).incoming = [] := by
  by_cases hlt : dim < p.dims.length
  · have hmem : p.dim dim ∈ p.dims := by
      simp [Plan.dim, List.getD_eq_getElem?_getD, hlt]
    have hnil := List.flatMap_eq_nil_iff.1 h.unobstructed _ (h.dims ▸ hmem)
    by_cases hg : (p.dim dim).gathered = []
    · exact .inl hg
    · exact .inr (by simpa [hg] using hnil)
  · left
    simp [Plan.dim, List.getD_eq_getElem?_getD, List.getElem?_eq_none (Nat.not_lt.1 hlt)]

theorem Found.move (h : Found t p barred order)
    (ht : ∀ a dim, (a, dim) ∈ t.movable → ∃ d, t.dims[dim]? = some d) {move : Move}
    (hmove : move ∈ p.moves) : move.axes ≠ [] ∧ move.source ≠ move.target ∧
      move.source < t.dims.length ∧ move.target < t.dims.length := by
  have hm := h.moves_perm.mem_iff.1 hmove
  obtain ⟨d, hd, hne, _⟩ := mem_movesOf hm
  obtain ⟨a, ha⟩ := List.exists_mem_of_ne_nil _ hne
  obtain ⟨hmov, _, hst⟩ := movable_of_mem_axes hm ha
  obtain ⟨d', hd'⟩ := ht _ _ hmov
  exact ⟨hne, hst, (List.getElem?_eq_some_iff.1 hd').1, (List.getElem?_eq_some_iff.1 hd).1⟩

end found

/-- A plan that leads to the atoms `target` from atoms of `source`, if the dimensions can be
brought into the order that it needs. -/
structure Leads (source target : List (List AxisRef)) (p : Plan) : Prop where
  rank : p.dims.length = source.length
  gathers : ∀ dim, (p.dim dim).gathered ⊆ source.getD dim []
  reaches : ∀ dim < source.length, (p.dim dim).kept ++ (p.dim dim).incoming
    ++ (p.dim dim).sliced = target.getD dim []
  arrives : ∀ dim < source.length, arrived p.moves dim = (p.dim dim).incoming
  free : ∀ dim, (p.dim dim).gathered = [] ∨ (p.dim dim).incoming = []
  ordered : p.moves.Pairwise fun a b => b.source ≠ a.target
  moves : ∀ move ∈ p.moves, move.axes ≠ [] ∧ move.source ≠ move.target ∧
    move.source < source.length ∧ move.target < source.length

/-- A plan that leads from the atoms `source` to the atoms `target`. -/
structure Links (source target : List (List AxisRef)) (p : Plan) : Prop
    extends Leads source target p where
  leaves : ∀ dim < source.length, ((p.dim dim).kept ++ (p.dim dim).gathered
    ++ leaving p.moves dim).Perm (source.getD dim [])

theorem dims_ofAtoms {opaqueAxes : List String} {source target : List (List AxisRef)}
    (hlen : source.length = target.length) {dim : Nat} (hdim : dim < source.length) :
    ∃ d, (Task.ofAtoms opaqueAxes source target).dims[dim]? = some d ∧
      d.settled ++ d.source = source.getD dim [] ∧ d.settled ++ d.target = target.getD dim [] := by
  have hdim' : dim < target.length := hlen ▸ hdim
  refine ⟨_, getElem?_ofAtoms hdim hdim', ?_, ?_⟩
  · simpa [List.getD_eq_getElem?_getD, hdim] using DimTask.settled_append_source ..
  · simpa [List.getD_eq_getElem?_getD, hdim'] using DimTask.settled_append_target ..

/-- The plan for two lists of atoms leads to the second one. -/
theorem leads_plan {opaqueAxes : List String} {source target : List (List AxisRef)}
    (hlen : source.length = target.length) :
    Leads source target (plan (Task.ofAtoms opaqueAxes source target)) := by
  obtain ⟨barred, order, hfound⟩ := plan_found (Task.ofAtoms opaqueAxes source target)
  have hmovable : ∀ a dim, (a, dim) ∈ (Task.ofAtoms opaqueAxes source target).movable →
      ∃ d, (Task.ofAtoms opaqueAxes source target).dims[dim]? = some d := fun a dim h =>
    have ⟨d, hd, _⟩ := movable_ofAtoms h
    ⟨d, hd⟩
  have hdims : ∀ dim < source.length, ∃ d, (Task.ofAtoms opaqueAxes source target).dims[dim]? =
      some d ∧ d.settled ++ d.source = source.getD dim [] ∧
      d.settled ++ d.target = target.getD dim [] := fun dim => dims_ofAtoms hlen
  have hrank : (Task.ofAtoms opaqueAxes source target).dims.length = source.length := by
    simp [Task.ofAtoms, hlen]
  revert hfound hmovable hdims hrank
  generalize plan (Task.ofAtoms opaqueAxes source target) = p
  generalize Task.ofAtoms opaqueAxes source target = t
  intro hfound hmovable hdims hrank
  refine ⟨by simp [hfound.dims, classify, hrank], fun dim => ?_, fun dim hlt => ?_,
    fun dim hlt => ?_, hfound.free, ?_, fun move hmove => hrank ▸ hfound.move hmovable hmove⟩
  · by_cases hlt : dim < source.length
    · obtain ⟨d, hd, hsource, _⟩ := hdims dim hlt
      rw [hfound.dim_eq hd, ← hsource]
      exact List.Subset.trans (List.filter_subset_self _) (List.subset_append_right _ _)
    · have hnone : p.dims.length ≤ dim := by
        simpa [hfound.dims, classify, hrank] using hlt
      simp [Plan.dim, List.getD_eq_getElem?_getD, List.getElem?_eq_none hnone]
  · obtain ⟨d, hd, _, htarget⟩ := hdims dim hlt
    rw [hfound.dim_eq hd, ← htarget, ← staying_append_incoming t barred dim d]
    simp [classifyDim, incoming]
  · obtain ⟨d, hd, _, _⟩ := hdims dim hlt
    rw [hfound.dim_eq hd, arrived, hfound.moves, filter_target_of_orderMoves hfound.orders]
    exact arrived_movesOf hd
  · rw [hfound.moves]
    exact ordered_of_orderMoves hfound.orders

/-- It leads there from the first one if no atom is in either of them twice. -/
theorem links_plan {opaqueAxes : List String} {source target : List (List AxisRef)}
    (hlen : source.length = target.length) (hs : source.flatten.Nodup)
    (ht : target.flatten.Nodup) :
    Links source target (plan (Task.ofAtoms opaqueAxes source target)) := by
  obtain ⟨barred, order, hfound⟩ := plan_found (Task.ofAtoms opaqueAxes source target)
  refine ⟨leads_plan hlen, fun dim hlt => ?_⟩
  obtain ⟨d, hd, hsource, _⟩ := dims_ofAtoms hlen hlt
  rw [← hsource]
  exact hfound.leaves (proper_ofAtoms hs ht) hd

/-- What source and target of a dimension begin with is kept in front. -/
theorem isPrefix_kept_plan {opaqueAxes : List String} {source target : List (List AxisRef)}
    {dim : Nat} {l : List AxisRef} (hl : ∀ a ∈ l, a.name ∉ opaqueAxes)
    (hs : l <+: source.getD dim []) (ht : l <+: target.getD dim []) :
    l <+: ((plan (Task.ofAtoms opaqueAxes source target)).dim dim).kept := by
  by_cases hdim : dim < source.length ∧ dim < target.length
  · obtain ⟨barred, order, hfound⟩ := plan_found (Task.ofAtoms opaqueAxes source target)
    have hsource : l <+: source[dim] := by simpa [List.getD_eq_getElem?_getD, hdim.1] using hs
    have htarget : l <+: target[dim] := by simpa [List.getD_eq_getElem?_getD, hdim.2] using ht
    rw [hfound.dim_eq (getElem?_ofAtoms hdim.1 hdim.2)]
    exact (DimTask.isPrefix_settled opaqueAxes hl hsource htarget).trans (List.prefix_append ..)
  · have hnil : l = [] := by
      rcases not_and_or.1 hdim with h | h
      · simpa [List.getD_eq_getElem?_getD, List.getElem?_eq_none (Nat.not_lt.1 h)] using hs
      · simpa [List.getD_eq_getElem?_getD, List.getElem?_eq_none (Nat.not_lt.1 h)] using ht
    rw [hnil]
    exact List.nil_prefix

section clear

variable {opaqueAxes : List String} {source target : List (List AxisRef)} {a : AxisRef}
  {dim : Nat}

theorem clear_of_mem_settled {as bs : List AxisRef}
    (h : a ∈ (DimTask.ofAtoms opaqueAxes as bs).settled) : a.name ∉ opaqueAxes := by
  fun_induction DimTask.ofAtoms opaqueAxes as bs with
  | case1 x as y bs hxy t ih =>
    rcases List.mem_cons.1 h with rfl | h
    · exact hxy.2
    · exact ih h
  | case2 => cases h
  | case3 => cases h

theorem clear_of_origin (h : (Task.ofAtoms opaqueAxes source target).origin? a = some dim) :
    a.name ∉ opaqueAxes := by
  obtain ⟨i, d, -, hx⟩ := mem_flatten_mapIdx.1 (movable_of_origin h)
  obtain ⟨b, hb, heq⟩ := List.mem_map.1 hx
  cases heq
  simpa using (List.mem_filter.1 hb).2

/-- A plan neither keeps nor moves atoms of opaque axes. -/
theorem clear_plan (ha : a ∈ ((plan (Task.ofAtoms opaqueAxes source target)).dim dim).kept
      ++ arrived (plan (Task.ofAtoms opaqueAxes source target)).moves dim) :
    a.name ∉ opaqueAxes := by
  obtain ⟨barred, order, hfound⟩ := plan_found (Task.ofAtoms opaqueAxes source target)
  rcases List.mem_append.1 ha with ha | ha
  · cases hd : (Task.ofAtoms opaqueAxes source target).dims[dim]? with
    | none => simp [Plan.dim, hfound.dims, classify, List.getD_eq_getElem?_getD, hd] at ha
    | some d =>
      rw [hfound.dim_eq hd] at ha
      rcases List.mem_append.1 ha with ha | ha
      · obtain ⟨as, bs, -, -, rfl⟩ := List.getElem?_zipWith_eq_some.1 hd
        exact clear_of_mem_settled ha
      · exact clear_of_origin (origin_of_mem_staying ha)
  · obtain ⟨move, hmove, ha⟩ := List.mem_flatMap.1 ha
    obtain ⟨d, -, -, hall⟩ :=
      mem_movesOf (hfound.moves_perm.mem_iff.1 (List.mem_filter.1 hmove).1)
    exact clear_of_origin (mem_splitIncoming (hall a ha)).1

end clear

end Resharding
end MeshSharding
