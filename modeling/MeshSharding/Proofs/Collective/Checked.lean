import MeshSharding.Collective.Checked
import MeshSharding.Proofs.AxisList.Removal
import MeshSharding.Proofs.Collective.Outcome

/-! The checks of collectives. Of all the checks only the one of the first remainder can fail: once
the boundaries of all axes were compared, no boundary at zero is followed by another one, so windows
end no earlier than they begin and their parts have positive sizes. The other checks are met by what
was tested before. -/
namespace MeshSharding
namespace Checked

open AxisList

variable {m : Mesh} {c : Collective} {s : TensorSharding} {all axes suffix : List AxisRef}
  {a : AxisRef} {bounds : List Nat} {lists : List (List AxisRef)}

theorem remainder_eq {b : Nat} (a : Nat) (hb : b ≠ 0) : remainder a b = .ok (a % b) := if_neg hb

theorem quotient_eq {b : Nat} (a : Nat) (hb : b ≠ 0) : quotient a b = .ok (a / b) := if_neg hb

theorem range_eq {low high : Nat} (l : List Nat) (h : low ≤ high) :
    range l low high = .ok (l.filter fun c => low ≤ c ∧ c ≤ high) := if_neg (Nat.not_lt.2 h)

theorem entry_eq {α : Type} {l : List α} {i : Nat} {x : α} (h : l[i]? = some x) :
    entry l i = .ok x := by rw [entry, h]

theorem front_eq {α : Type} {l : List α} {n : Nat} (h : n ≤ l.length) :
    front l n = .ok (l.take (l.length - n)) := if_neg (Nat.not_lt.2 h)

section subdivision

theorem mapM_eq_ok {α β : Type} {f : α → Except Error β} {g : α → β} {l : List α}
    (h : ∀ a ∈ l, f a = .ok (g a)) : l.mapM f = .ok (l.map g) := by
  simpa using mapM_map_eq_ok (g := id) h

theorem anyOpaque_eq {l : List (Nat × Nat)} (h : ∀ s ∈ l, s.1 ≠ 0) :
    anyOpaque l = .ok (l.any fun s => s.2 % s.1 ≠ 0) := by
  induction l with
  | nil => rfl
  | cons step rest ih =>
    rw [List.forall_mem_cons] at h
    rw [anyOpaque, remainder_eq _ h.1, List.any_cons, ih h.2]
    by_cases hover : step.2 % step.1 = 0 <;>
      simp [bind, Except.bind, pure, Except.pure, hover]

/-- A boundary at zero is the first one, so it is divided by if another one follows. -/
theorem anyOpaque_steps_eq (hs : bounds.Pairwise (· < ·)) : anyOpaque (steps bounds)
    = if isUndefined bounds then .error (.fault .divisionByZero) else .ok (isOpaque bounds) := by
  by_cases hzero : isUndefined bounds = true
  · rw [if_pos hzero]
    cases bounds with
    | nil => cases hzero
    | cons low rest =>
      cases rest with
      | nil => cases hzero
      | cons high rest =>
        have hrest : ∀ c ∈ high :: rest, c ≠ 0 := fun c hc =>
          Nat.ne_of_gt (Nat.zero_lt_of_lt ((List.pairwise_cons.1 hs).1 c hc))
        obtain ⟨step, hstep, hstep0⟩ := List.any_eq_true.1 hzero
        have hlow : low = 0 := by
          rcases List.mem_cons.1 hstep with rfl | hmem
          · simpa using hstep0
          · exact absurd (by simpa using hstep0) (hrest _ (mem_of_mem_steps hmem).1)
        simp [steps, anyOpaque, remainder, hlow, bind, Except.bind]
  · rw [if_neg hzero]
    refine anyOpaque_eq fun step hstep => ?_
    simpa using List.any_eq_false.1 (Bool.eq_false_iff.2 hzero) step hstep

theorem opaqueNames_eq (names : List String) :
    opaqueNames (names.map fun name => (name, boundaries m all name))
      = if names.any fun name => isUndefined (boundaries m all name) then
          .error (.fault .divisionByZero)
        else .ok (names.filter fun name => isOpaque (boundaries m all name)) := by
  induction names with
  | nil => rfl
  | cons name rest ih =>
    rw [List.map_cons, opaqueNames, anyOpaque_steps_eq (sorted_boundaries all name), ih,
      List.any_cons, List.filter_cons]
    by_cases hzero : isUndefined (boundaries m all name) = true
    · simp [hzero, bind, Except.bind]
    · by_cases hrest : rest.any (fun name => isUndefined (boundaries m all name)) = true
      · simp [hzero, hrest, bind, Except.bind]
      · simp [hzero, hrest, bind, Except.bind, pure, Except.pure]

theorem boundariesOf_eq {name : String} (h : name ∈ all.map (·.name)) :
    boundariesOf (boundaryTable m all) name = .ok (boundaries m all name) := by
  have hfind : ∀ names : List String, name ∈ names →
      Sorted.find? name (names.map fun name => (name, boundaries m all name))
        = some (boundaries m all name) := by
    intro names hmem
    induction names with
    | nil => cases hmem
    | cons first rest ih =>
      rw [List.map_cons, Sorted.find?_cons]
      by_cases hfirst : first = name
      · simp [hfirst]
      · rw [if_neg hfirst, ih (by simpa [Ne.symm hfirst] using hmem)]
  rw [boundariesOf, boundaryTable, hfind _ (by simpa using h)]

/-- Between the ends of a window that ends no earlier than it begins lies a range of boundaries,
all of which but the last are positive. -/
theorem cutAt_eq (hs : bounds.Pairwise (· < ·)) (hzero : isUndefined bounds = false)
    (ha : a.Upright m) : cutAt m bounds a = .ok (AxisList.cutAt m bounds a) := by
  rw [cutAt, range_eq _ ha]
  refine mapM_eq_ok fun step hstep => ?_
  have hcuts : (bounds.filter fun c => a.preSize ≤ c ∧ c ≤ a.nextPreSize m).Sublist bounds :=
    List.filter_sublist
  have hlt : step.1 < step.2 := forall_mem_steps_iff.2
    (List.Pairwise.isChain (hs.sublist hcuts)) step hstep
  obtain ⟨h1, h2⟩ := mem_of_mem_steps hstep
  have hne : step.1 ≠ 0 := fun h0 => by
    have := eq_zero_of_isUndefined_eq_false hs hzero (h0 ▸ hcuts.subset h1) _ (hcuts.subset h2)
    omega
  simp [quotient_eq _ hne, bind, Except.bind, pure, Except.pure]

theorem atomsOf_eq (ha : a ∈ all) (hzero : isUndefined (boundaries m all a.name) = false)
    (names : List String) :
    atomsOf m (boundaryTable m all) names a = .ok (AxisList.atomsOf m all names a) := by
  unfold atomsOf AxisList.atomsOf
  split
  · rfl
  · rw [boundariesOf_eq (List.mem_map_of_mem ha)]
    exact cutAt_eq (sorted_boundaries _ _) hzero (upright_of_isUndefined_eq_false ha hzero)

theorem atomize_eq (m : Mesh) (lists : List (List AxisRef)) :
    atomize m lists = AxisList.atomize m lists := by
  unfold atomize AxisList.atomize
  generalize hall : lists.flatten = all
  have hnames : opaqueNames (boundaryTable m all)
      = if all.any fun a => isUndefined (boundaries m all a.name) then
          .error (.fault .divisionByZero)
        else .ok (AxisList.opaqueAxes m all) := by
    rw [boundaryTable, opaqueNames_eq, AxisList.opaqueAxes]
    refine if_congr (Bool.eq_iff_iff.1 ?_) rfl rfl
    rw [Bool.eq_iff_iff]
    simp
  dsimp only
  rw [hnames]
  by_cases hzero : (all.any fun a => isUndefined (boundaries m all a.name)) = true
  · rw [if_pos hzero, if_pos hzero]
    rfl
  · rw [if_neg hzero, if_neg hzero]
    have hatoms : ∀ list ∈ lists, list.mapM (atomsOf m (boundaryTable m all)
        (AxisList.opaqueAxes m all))
          = .ok (list.map (AxisList.atomsOf m all (AxisList.opaqueAxes m all))) := by
      refine fun list hlist => mapM_eq_ok fun a ha => ?_
      have hmem : a ∈ all := hall ▸ List.mem_flatten.2 ⟨list, hlist, ha⟩
      exact atomsOf_eq hmem (by
        simpa using List.any_eq_false.1 (Bool.eq_false_iff.2 hzero) a hmem) _
    have hlists := mapM_eq_ok (l := lists) (f := fun list => do
        return (← list.mapM (atomsOf m (boundaryTable m all)
          (AxisList.opaqueAxes m all))).flatten)
      (g := fun list => list.flatMap (AxisList.atomsOf m all (AxisList.opaqueAxes m all)))
      fun list hlist => by
        rw [hatoms list hlist, List.flatMap_def]
        rfl
    simp only [bind, Except.bind, pure, Except.pure] at hlists ⊢
    rw [hlists]

theorem removeSuffix_eq (m : Mesh) (axes suffix : List AxisRef) :
    removeSuffix m axes suffix = AxisList.removeSuffix m axes suffix := by
  unfold removeSuffix AxisList.removeSuffix
  rw [atomize_eq]
  refine bind_congr fun cut => ?_
  obtain ⟨lists, names⟩ := cut
  match lists with
  | [] => rfl
  | [_] => rfl
  | _ :: _ :: _ :: _ => rfl
  | [axes, suffix] =>
    by_cases hsuffix : suffix.isSuffixOf axes = true
    · have hle := (List.isSuffixOf_iff_suffix.1 hsuffix).length_le
      simp [hsuffix, front_eq hle, bind, Except.bind]
    · simp [hsuffix]

end subdivision

section collective

theorem takeOff_eq (dim : Nat) : takeOff c m dim axes suffix = c.takeOff m dim axes suffix := by
  unfold takeOff Collective.takeOff
  exact congrArg (· >>= _) (removeSuffix_eq m axes suffix)

theorem gatherDims_eq (dim : Nat) (ds : List DimSharding) (lists : List (List AxisRef)) :
    gatherDims c m dim ds lists = c.gatherDims m dim ds lists := by
  induction ds generalizing dim lists with
  | nil => rfl
  | cons d rest ih =>
    cases lists with
    | nil => rfl
    | cons axes lists => simp only [gatherDims, Collective.gatherDims, takeOff_eq, ih]

theorem setAxes_eq {dim : Nat} (h : dim < s.rank) (axes : List AxisRef) :
    setAxes s dim axes = .ok (s.modifyDim dim fun d => { d with axes := axes }) := by
  rw [setAxes, entry_eq (List.getElem?_eq_getElem h)]
  rfl

theorem applyMove_eq (move : Move) : applyMove c m s move = c.applyMove m s move := by
  unfold applyMove Collective.applyMove
  by_cases hdims : s.rank ≤ move.source ∨ s.rank ≤ move.target
  · rw [if_pos (.inr hdims)]
    split
    · rename_i hd he
      have hsource := (List.getElem?_eq_some_iff.1 hd).1
      have htarget := (List.getElem?_eq_some_iff.1 he).1
      unfold TensorSharding.rank at hdims
      omega
    · rfl
  · rw [not_or, Nat.not_le, Nat.not_le] at hdims
    obtain ⟨d, hd⟩ : ∃ d, s.dims[move.source]? = some d :=
      ⟨_, List.getElem?_eq_getElem hdims.1⟩
    obtain ⟨e, he⟩ : ∃ e, s.dims[move.target]? = some e :=
      ⟨_, List.getElem?_eq_getElem hdims.2⟩
    rw [hd, he]
    dsimp only
    by_cases hne : move.source = move.target
    · rw [if_pos (.inl hne), if_pos hne]
    · rw [if_neg (by omega), if_neg hne]
      split
      · rfl
      · rw [entry_eq hd]
        simp only [takeOff_eq]
        cases htake : c.takeOff m move.source d.axes move.axes with
        | error e => simp [bind, Except.bind, htake]
        | ok kept =>
          have he' : (s.modifyDim move.source fun d => { d with axes := kept }).dims[move.target]?
              = some e := by rw [TensorSharding.dims_modifyDim_of_ne (Ne.symm hne), he]
          have hset := setAxes_eq hdims.1 kept
          have hset' := setAxes_eq (s := s.modifyDim move.source fun d => { d with axes := kept })
            (by simpa using hdims.2) (mergeAdjacent m (e.axes ++ move.axes))
          simp [bind, Except.bind, pure, Except.pure, htake, hset, entry_eq he', hset']

end collective

end Checked
end MeshSharding
