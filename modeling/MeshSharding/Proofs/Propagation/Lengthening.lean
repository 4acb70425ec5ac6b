import MeshSharding.Proofs.AxisList.Weight
import MeshSharding.Proofs.Propagation.Closing

/-! Tensors with longer dimensions. A factor that takes axes lengthens its dimension, since only
empty factors are behind it, and a dimension that has been lengthened by axes which the rest of the
tensor leaves free is a refinement that is accepted. -/
namespace MeshSharding

open AxisList

namespace AxisList

variable {m : Mesh} {l r : List AxisRef}

/-- A list is taken off one that it has been lengthened to. -/
theorem stripPrefix?_append (hm : m.NoUnitAxes) (hl : AllValid m l) (hr : AllValid m r) :
    stripPrefix? m (l ++ r) l = some (mergeAdjacent m r) := by
  have hv := hl.mergeAdjacent
  rw [stripPrefix?, ← mergeAdjacent_append_left]
  exact cutMerged_mergeAdjacent_append hv hr (separated_mergeAdjacent l)
    (fun a ha => (hv a ha).one_lt_size hm) fun a ha => (hr a ha).one_lt_size hm

theorem equivalent_append (hm : m.NoUnitAxes) (hl : AllValid m l) (hr : AllValid m r)
    (hne : r ≠ []) : equivalent m l (l ++ r) = false := by
  refine decide_eq_false fun heq => ?_
  have hpos := weight_pos hm hr hne
  have hweight := congrArg (weight m) heq
  rw [weight_mergeAdjacent hl, weight_mergeAdjacent (allValid_append.2 ⟨hl, hr⟩),
    weight_append] at hweight
  omega

end AxisList

namespace TensorSharding

variable {m : Mesh} {s : TensorSharding} {dim : Nat} {d : DimSharding} {axes more : List AxisRef}

/-- An open dimension is refined by further axes that the rest of the sharding leaves free. -/
theorem exists_refineDim (hm : m.NoUnitAxes) (hs : s.Valid m) (hd : s.dims[dim]? = some d)
    (hopen : d.closed = false) (hmore : AllValid m more) (hne : more ≠ [])
    (haxes : mergeAdjacent m axes = mergeAdjacent m (d.axes ++ more))
    (hfree : ∀ name c, 0 < coverage m name c more → coverage m name c (s.axesOutside dim) = 0) :
    ∃ s', s.refineDim m dim axes = some s' := by
  obtain ⟨hv, hout⟩ := allValid_append.1 ((valid_iff hd).1 hs).1
  have hprefix : isPrefix m d.axes axes = true := by
    have := isPrefix_append hv hmore
    rwa [isPrefix, commonPrefix, ← haxes] at this
  have hnew : equivalent m d.axes axes = false := by
    have := equivalent_append hm hv hmore hne
    rwa [equivalent, ← haxes] at this
  have hstrip : stripPrefix? m axes d.axes = some (mergeAdjacent m more) := by
    rw [← stripPrefix?_append hm hv hmore, stripPrefix?, haxes, stripPrefix?]
  have hadded : ∀ a ∈ mergeAdjacent m more, overlapsAny m a (s.axesOutside dim) = false :=
    fun a ha => overlapsAny_eq_false hmore.mergeAdjacent hout
      (fun name c hc => hfree name c (by rwa [coverage_mergeAdjacent hmore] at hc)) ha
  refine ⟨s.modifyDim dim fun d => { d with axes := mergeAdjacent m axes }, ?_⟩
  simp only [refineDim, hd, Option.bind_eq_bind, Option.bind_some, hopen, hprefix, hnew, hstrip,
    Bool.not_true, Bool.or_false, Bool.false_eq_true, if_false]
  rw [if_neg (by simpa using hadded)]

/-- A dimension of a tensor, which is open and without axes if the tensor is not sharded. -/
def dimOf (s : Option TensorSharding) (i : Nat) : DimSharding :=
  ((s.map (·.dims)).getD [])[i]?.getD (.ofAxes [] false)

theorem dimOf_eq_or_mem (s : Option TensorSharding) (i : Nat) :
    dimOf s i = .ofAxes [] false ∨ ∃ x ∈ s, dimOf s i ∈ x.dims := by
  unfold dimOf
  cases s with
  | none => exact .inl rfl
  | some s =>
    cases hd : s.dims[i]? with
    | none => simp [hd]
    | some d => simpa [hd] using .inr (List.mem_of_getElem? hd)

theorem allValid_dimOf {s : Option TensorSharding} (hs : ∀ x ∈ s, x.Valid m) (i : Nat) :
    AllValid m (dimOf s i).axes := by
  rcases dimOf_eq_or_mem s i with hd | ⟨x, hx, hd⟩
  · rw [hd]
    exact List.forall_mem_nil _
  · exact (hs x hx).allValid_dims _ hd

theorem dimOf_modifyDim {s : TensorSharding} {i : Nat} (hi : i < s.rank)
    (f : DimSharding → DimSharding) (j : Nat) : dimOf (some (s.modifyDim i f)) j
      = if j = i then f (dimOf (some s) j) else dimOf (some s) j := by
  simp only [dimOf, Option.map_some, Option.getD_some]
  by_cases hj : j = i
  · subst hj
    have hd := List.getElem?_eq_getElem hi
    rw [dims_modifyDim hd, hd, if_pos rfl]
    rfl
  · rw [dims_modifyDim_of_ne hj, if_neg hj]

/-- A tensor that is not sharded has the dimensions of a fully open one. -/
theorem dimOf_getD (s : Option TensorSharding) (name : String) (n i : Nat) :
    dimOf (some (s.getD (.fullyOpen name n))) i = dimOf s i := by
  cases s with
  | some s => rfl
  | none =>
    simp only [dimOf, Option.getD_none, Option.map_some, Option.map_none, Option.getD_some,
      fullyOpen, ofDims, List.getElem?_replicate]
    split <;> rfl

end TensorSharding

open TensorSharding

/-- Only behind an axis that is taken do others overflow. -/
theorem Share.overflow_eq_nil {m : Mesh} {n : Nat} {l : List AxisRef} {share : Share}
    (h : take m n l = .ok share) (haxes : share.axes = []) : share.overflow = [] := by
  cases l with
  | nil => cases h; rfl
  | cons a rest =>
    rw [take] at h
    split at h
    · cases h; rfl
    · split at h
      · cases h
      · split at h
        · obtain ⟨share', -, h⟩ := bind_eq_ok_iff.1 h
          cases h
          cases haxes
        · split at h <;> cases h <;> cases haxes

namespace TensorFactors

variable {m : Mesh} {r : Rule} {mapping : Mapping} {s : Option TensorSharding} {x : TensorFactors}
  {k i dim place : Nat} {f : FactorSharding} {fs : List Nat} {more : List AxisRef}
  {changed : Nat → Prop}

section project

variable {closed : Bool} {l : List AxisRef} {entries : List (Nat × FactorSharding)}

/-- All factors are closed like their dimension, and the minor-most is the last one. -/
theorem shape_dealOut (h : dealOut m r closed fs l = .ok entries) : ∀ e ∈ entries,
    e.2.closed = closed ∧ (e.2.axes = [] → e.2.overflow = []) ∧
      (e.2.minorMost = true → fs.getLast? = some e.1) := by
  induction fs generalizing l entries with
  | nil => cases h; nofun
  | cons f rest ih =>
    cases rest with
    | nil => cases h; simp
    | cons g rest =>
      obtain ⟨share, others, htake, hothers, rfl⟩ := dealOut_cons_eq_ok h
      refine List.forall_mem_cons.2 ⟨⟨rfl, Share.overflow_eq_nil htake, nofun⟩, fun e he => ?_⟩
      rw [List.getLast?_cons_cons]
      exact ih hothers e he

theorem exists_part_of_dealOutDims {fss : List (List Nat)} {dims : List DimSharding}
    (h : dealOutDims m r fss dims = .ok entries) (hfs : fss[i]? = some fs) :
    ∃ part, dealOut m r (dims[i]?.getD (.ofAxes [] false)).closed fs
      (dims[i]?.getD (.ofAxes [] false)).axes = .ok part ∧ part ⊆ entries := by
  induction fss generalizing dims entries i with
  | nil => cases hfs
  | cons first fss ih =>
    obtain ⟨part, hpart, h⟩ := bind_eq_ok_iff.1 h
    obtain ⟨others, hothers, h⟩ := bind_eq_ok_iff.1 h
    cases h
    cases i with
    | zero =>
      cases hfs
      rw [← List.head?_eq_getElem?]
      exact ⟨part, hpart, List.subset_append_left ..⟩
    | succ i =>
      obtain ⟨part', hpart', hsub⟩ := ih hothers (by simpa using hfs)
      rw [List.getElem?_tail] at hpart'
      exact ⟨part', hpart', fun e he => List.mem_append_right _ (hsub he)⟩

/-- The axes of a dimension, none if there is no sharding, are dealt out to its factors. -/
theorem exists_part (hs : ∀ x ∈ s, x.Valid m) (hn : mapping.dims.flatten.Nodup)
    (h : project m r mapping s = .ok x) (hfs : mapping.dims[i]? = some fs) :
    ∃ part, dealOut m r (dimOf s i).closed fs (dimOf s i).axes = .ok part ∧
      part.map (·.1) = fs ∧ ∀ e ∈ part, x.factor? e.1 = some e.2 := by
  obtain ⟨entries, hentries, h⟩ := bind_eq_ok_iff.1 h
  cases h
  have hv := allValid_getD_dims fun x hx => (hs x hx).allValid_dims
  have hkeys := (dealOutDims_spec hv hentries).1
  obtain ⟨part, hpart, hsub⟩ := exists_part_of_dealOutDims hentries hfs
  refine ⟨part, hpart, ?_, fun e he => ?_⟩
  · refine (dealOut_spec ?_ hpart).1
    cases hd : ((s.map (·.dims)).getD [])[i]? with
    | none => simp [DimSharding.ofAxes, AllValid]
    | some d => exact hv d (List.mem_of_getElem? hd)
  · rw [factor?, Sorted.find?_ofEntries (hkeys ▸ hn)]
    exact Sorted.find?_eq_some (hkeys ▸ hn) (hsub he)

end project

/-- The axes of the factors one behind the other. -/
def joined (x : TensorFactors) (fs : List Nat) : List AxisRef := fs.flatMap (held x.factors)

theorem Proper.allValid_held (h : x.Proper m) (k : Nat) : AllValid m (held x.factors k) :=
  fun a ha => h.valid a (List.mem_append_left _ (List.mem_append_left _ (held_subset _ k ha)))

theorem Proper.allValid_joined (h : x.Proper m) (fs : List Nat) : AllValid m (x.joined fs) := by
  intro a ha
  obtain ⟨k, -, ha⟩ := List.mem_flatMap.1 ha
  exact h.allValid_held k a ha

/-- The dimensions cover no more than the factors. -/
theorem coverage_flatMap_joined_le (hn : mapping.dims.flatten.Nodup) (name : String) (c : Nat) :
    coverage m name c (mapping.dims.flatMap x.joined)
      ≤ coverage m name c (x.factors.flatMap fun entry => (Portion.ofFactor entry.2).all) := by
  have hall := coverage_flatMap_held (m := m) hn x.factors name c
  rw [List.flatten_eq_flatMap, List.flatMap_assoc] at hall
  exact hall

theorem held_eq (h : x.factor? k = some f) : held x.factors k = f.axes ++ f.overflow := by
  rw [held, show Sorted.find? k x.factors = some f from h]
  rfl

theorem Proper.allValid_axes (h : x.Proper m) (hf : x.factor? k = some f) : AllValid m f.axes := by
  have hheld := h.allValid_held k
  rw [held_eq hf] at hheld
  exact (allValid_append.1 hheld).1

theorem held_setAxes_of_ne {j : Nat} (hj : j ≠ k) (axes : List AxisRef) :
    held (x.setAxes k axes).factors j = held x.factors j := by
  have h := factor?_setAxes x k j axes
  rw [if_neg hj] at h
  rw [held, held, show Sorted.find? j (x.setAxes k axes).factors = Sorted.find? j x.factors from h]

theorem joined_setAxes_of_not_mem (hk : k ∉ fs) (axes : List AxisRef) :
    (x.setAxes k axes).joined fs = x.joined fs := by
  refine List.flatMap_congr fun j hj => held_setAxes_of_ne ?_ axes
  rintro rfl
  exact hk hj

/-- A factor with no axes behind it lengthens its dimension. -/
theorem joined_setAxes (hn : fs.Nodup) (hk : fs[place]? = some k) (hf : x.factor? k = some f)
    (hoverflow : f.overflow = []) (hminor : ∀ j ∈ fs.drop (place + 1), held x.factors j = [])
    (more : List AxisRef) :
    (x.setAxes k (f.axes ++ more)).joined fs = x.joined fs ++ more := by
  obtain ⟨hlt, rfl⟩ := List.getElem?_eq_some_iff.1 hk
  have hsplit : fs = fs.take place ++ fs[place] :: fs.drop (place + 1) := by simp
  have hset : (x.setAxes fs[place] (f.axes ++ more)).factor? fs[place]
      = some { f with axes := f.axes ++ more } := by
    rw [factor?_setAxes, if_pos rfl, hf]
    rfl
  generalize fs[place] = k at hsplit hset hf
  generalize fs.take place = major at hsplit
  generalize fs.drop (place + 1) = minor at hsplit hminor
  subst hsplit
  rw [List.nodup_append, List.nodup_cons] at hn
  have hmajor : k ∉ major := fun hmem => hn.2.2 k hmem k List.mem_cons_self rfl
  have hnil : x.joined minor = [] := List.flatMap_eq_nil_iff.2 hminor
  have hminor' := joined_setAxes_of_not_mem (x := x) hn.2.1.1 (f.axes ++ more)
  have hmajor' := joined_setAxes_of_not_mem (x := x) hmajor (f.axes ++ more)
  unfold joined at hnil hminor' hmajor' ⊢
  rw [List.flatMap_append, List.flatMap_cons, List.flatMap_append, List.flatMap_cons, hmajor',
    hminor', hnil, held_eq hset, held_eq hf, hoverflow]
  simp

/-- The tensor has the axes of the sharding, with further minor ones in some of the dimensions.
Those that count as changed have some, and they are open. -/
structure Lengthens (m : Mesh) (mapping : Mapping) (s : Option TensorSharding)
    (changed : Nat → Prop) (x : TensorFactors) : Prop where
  proper : x.Proper m
  replicated : x.replicated = (s.map (·.replicated)).getD []
  unreduced : x.unreduced = (s.map (·.unreduced)).getD []
  factors : ∀ (i : Nat) (fs : List Nat) (k : Nat), mapping.dims[i]? = some fs → k ∈ fs →
    ∃ f, x.factor? k = some f ∧ f.closed = (dimOf s i).closed ∧ (f.axes = [] → f.overflow = []) ∧
      (f.minorMost = true → fs.getLast? = some k)
  joined : ∀ (i : Nat) (fs : List Nat), mapping.dims[i]? = some fs → ∃ more, AllValid m more ∧
    mergeAdjacent m (x.joined fs) = mergeAdjacent m ((dimOf s i).axes ++ more) ∧
    (changed i → more ≠ [] ∧ (dimOf s i).closed = false)

theorem Lengthens.mono {changed' : Nat → Prop} (h : x.Lengthens m mapping s changed)
    (hle : ∀ i, changed' i → changed i) : x.Lengthens m mapping s changed' :=
  { h with joined := fun i fs hfs =>
      have ⟨more, hmore, hjoined, hchanged⟩ := h.joined i fs hfs
      ⟨more, hmore, hjoined, fun hi => hchanged (hle i hi)⟩ }

/-- A tensor without a sharding counts as fully open. -/
theorem Lengthens.getD (h : x.Lengthens m mapping s changed) (name : String) (n : Nat) :
    x.Lengthens m mapping (some (s.getD (.fullyOpen name n))) changed := by
  have hdimOf : dimOf (some (s.getD (.fullyOpen name n))) = dimOf s :=
    funext (dimOf_getD s name n)
  refine ⟨h.proper, ?_, ?_, ?_, ?_⟩
  · rw [h.replicated]
    cases s <;> rfl
  · rw [h.unreduced]
    cases s <;> rfl
  · rw [hdimOf]
    exact h.factors
  · rw [hdimOf]
    exact h.joined

/-- The factors of a projection hold the axes of their dimension. -/
theorem joined_project {shape : Shape} (hs : ∀ x ∈ s, x.Valid m) (hr : r.Maps mapping shape)
    (h : project m r mapping s = .ok x) (hfs : mapping.dims[i]? = some fs) :
    mergeAdjacent m (x.joined fs) = mergeAdjacent m (dimOf s i).axes := by
  obtain ⟨part, hpart, hkeys, hall⟩ := exists_part hs hr.nodup h hfs
  have hjoined : x.joined fs = part.flatMap fun e => (Portion.ofFactor e.2).all := by
    rw [TensorFactors.joined, ← hkeys, List.flatMap_map]
    exact List.flatMap_congr fun e he => held_eq (hall e he)
  rw [hjoined]
  exact (dealOut_spec (allValid_dimOf hs i) hpart).2.2 (hr.mapped fs (List.mem_of_getElem? hfs))

/-- A projection changes nothing. -/
theorem lengthens_project {shape : Shape} (hs : ∀ x ∈ s, x.Valid m) (hr : r.Maps mapping shape)
    (h : project m r mapping s = .ok x) : x.Lengthens m mapping s fun _ => False := by
  refine ⟨proper_project hs hr.nodup h, ?_, ?_, fun i fs k hfs hk => ?_, fun i fs hfs => ?_⟩
  · obtain ⟨_, -, h⟩ := bind_eq_ok_iff.1 h
    cases h
    rfl
  · obtain ⟨_, -, h⟩ := bind_eq_ok_iff.1 h
    cases h
    rfl
  · obtain ⟨part, hpart, hkeys, hall⟩ := exists_part hs hr.nodup h hfs
    rw [← hkeys] at hk
    obtain ⟨e, he, rfl⟩ := List.mem_map.1 hk
    exact ⟨e.2, hall e he, shape_dealOut hpart e he⟩
  · refine ⟨[], List.forall_mem_nil _, ?_, False.elim⟩
    rw [List.append_nil]
    exact joined_project hs hr h hfs

/-- Behind a factor that may take axes there are none. -/
theorem Lengthens.held_eq_nil (h : x.Lengthens m mapping s changed)
    (hn : mapping.dims.flatten.Nodup) (hfs : mapping.dims[i]? = some fs) (hk : fs[place]? = some k)
    (hf : x.factor? k = some f) (hminor : f.minorMost = true ∨
      ∀ j ∈ fs.drop (place + 1), ∀ y, x.factor? j = some y → y.axes = []) :
    ∀ j ∈ fs.drop (place + 1), held x.factors j = [] := by
  intro l hl
  have hnodup := (List.nodup_flatten.1 hn).1 fs (List.mem_of_getElem? hfs)
  obtain ⟨_, hf', -, -, hlast⟩ := h.factors i fs k hfs (List.mem_of_getElem? hk)
  cases hf.symm.trans hf'
  obtain ⟨y, hy, -, hyempty, -⟩ := h.factors i fs l hfs (List.mem_of_mem_drop hl)
  rcases hminor with hminor | hminor
  · -- the factor is the last one of its dimension
    have hlength : fs.length = place + 1 := by
      have hlt := (List.getElem?_eq_some_iff.1 hk).1
      have heq := hlast hminor
      rw [List.getLast?_eq_getElem?, ← hk] at heq
      have := (List.getElem?_inj (by omega) hnodup).1 heq
      omega
    rw [List.drop_eq_nil_of_le (Nat.le_of_eq hlength)] at hl
    cases hl
  · have haxes := hminor l hl y hy
    rw [held_eq hy, haxes, hyempty haxes, List.append_nil]

/-- An open factor that has only empty ones behind it takes further axes. -/
theorem Lengthens.setAxes (h : x.Lengthens m mapping s changed) (hn : mapping.dims.flatten.Nodup)
    (hfs : mapping.dims[i]? = some fs) (hk : fs[place]? = some k) (hf : x.factor? k = some f)
    (hopen : f.closed = false) (hoverflow : f.overflow = [])
    (hminor : f.minorMost = true ∨
      ∀ j ∈ fs.drop (place + 1), ∀ y, x.factor? j = some y → y.axes = [])
    (hmore : AllValid m more) (hne : more ≠ [])
    (hproper : (x.setAxes k (f.axes ++ more)).Proper m) :
    (x.setAxes k (f.axes ++ more)).Lengthens m mapping s fun j => j = i ∨ changed j := by
  have hmem := List.mem_of_getElem? hk
  have hnodup := (List.nodup_flatten.1 hn).1 fs (List.mem_of_getElem? hfs)
  obtain ⟨_, hf', hclosed, -, -⟩ := h.factors i fs k hfs hmem
  cases hf.symm.trans hf'
  refine ⟨hproper, h.replicated, h.unreduced, fun j gs l hgs hl => ?_, fun j gs hgs => ?_⟩
  · obtain ⟨y, hy, hyclosed, hyempty, hylast⟩ := h.factors j gs l hgs hl
    rw [factor?_setAxes]
    split
    · rename_i hlk
      subst hlk
      cases hf.symm.trans hy
      rw [hf]
      exact ⟨_, rfl, hyclosed, fun _ => hoverflow, hylast⟩
    · exact ⟨y, hy, hyclosed, hyempty, hylast⟩
  · obtain ⟨old, hold, hjoined, hchanged⟩ := h.joined j gs hgs
    by_cases hj : j = i
    · subst hj
      cases hfs.symm.trans hgs
      have hbehind := h.held_eq_nil hn hfs hk hf hminor
      refine ⟨old ++ more, allValid_append.2 ⟨hold, hmore⟩, ?_, fun _ =>
        ⟨by simp [hne], hclosed.symm.trans hopen⟩⟩
      rw [joined_setAxes hnodup hk hf hoverflow hbehind, ← List.append_assoc]
      exact mergeAdjacent_append_congr hjoined rfl
    · have hnot : k ∉ gs := fun hin => hj (Mapping.index_eq_of_mem hn hgs hin hfs hmem)
      refine ⟨old, hold, ?_, fun hor => hchanged (hor.resolve_left hj)⟩
      rw [joined_setAxes_of_not_mem hnot]
      exact hjoined

section accept

variable {name : String} {c : Nat}

theorem coverage_flatMap_le {dims : List DimSharding} {fss : List (List Nat)}
    (hlength : fss.length = dims.length)
    (hall : ∀ (i : Nat) (fs : List Nat) (d : DimSharding), fss[i]? = some fs → dims[i]? = some d →
      coverage m name c d.axes ≤ coverage m name c (x.joined fs)) :
    coverage m name c (dims.flatMap (·.axes)) ≤ coverage m name c (fss.flatMap x.joined) := by
  induction fss generalizing dims with
  | nil =>
    cases dims with
    | nil => exact Nat.le_refl _
    | cons _ _ => cases hlength
  | cons fs fss ih =>
    cases dims with
    | nil => cases hlength
    | cons d dims =>
      rw [List.flatMap_cons, List.flatMap_cons, coverage_append, coverage_append]
      exact Nat.add_le_add (hall 0 fs d rfl rfl)
        (ih (by simpa using hlength) fun i fs' d' hfs hd => hall (i + 1) fs' d' hfs hd)

/-- What one dimension has in addition is covered in addition. -/
theorem coverage_flatMap_add_le {dims : List DimSharding} {fss : List (List Nat)} {n : Nat}
    {d : DimSharding} (name : String) (c : Nat) (hlength : fss.length = dims.length)
    (hall : ∀ (i : Nat) (fs : List Nat) (d : DimSharding), fss[i]? = some fs → dims[i]? = some d →
      coverage m name c d.axes ≤ coverage m name c (x.joined fs))
    (hfs : fss[i]? = some fs) (hd : dims[i]? = some d)
    (hmore : coverage m name c d.axes + n ≤ coverage m name c (x.joined fs)) :
    coverage m name c (dims.flatMap (·.axes)) + n ≤ coverage m name c (fss.flatMap x.joined) := by
  induction fss generalizing dims i with
  | nil => cases hfs
  | cons fs' fss ih =>
    cases dims with
    | nil => cases hlength
    | cons d' dims =>
      have hlength' : fss.length = dims.length := by simpa using hlength
      have hrest : ∀ (i : Nat) (fs : List Nat) (d : DimSharding), fss[i]? = some fs →
          dims[i]? = some d → coverage m name c d.axes ≤ coverage m name c (x.joined fs) :=
        fun i => hall (i + 1)
      rw [List.flatMap_cons, List.flatMap_cons, coverage_append, coverage_append]
      cases i with
      | zero =>
        cases hfs
        cases hd
        have := coverage_flatMap_le hlength' hrest
        omega
      | succ i =>
        have hfirst := hall 0 fs' d' rfl rfl
        have := ih hlength' hrest (by simpa using hfs) (by simpa using hd)
        omega

/-- The refinement of a dimension that has changed is accepted. -/
theorem Lengthens.exists_refineDim {s : TensorSharding} {shape : Shape} (hm : m.NoUnitAxes)
    (h : x.Lengthens m mapping (some s) changed) (hs : s.Valid m) (hr : r.Maps mapping shape)
    (hrank : s.rank = shape.length) (hfs : mapping.dims[i]? = some fs) (hchanged : changed i) :
    ∃ s', s.refineDim m i (x.dimAxes m mapping i) = some s' := by
  have hlength : mapping.dims.length = s.dims.length := hr.rank.trans hrank.symm
  have hdimOf : ∀ {j d}, s.dims[j]? = some d → dimOf (some s) j = d := fun hd => by
    simp only [dimOf, Option.map_some, Option.getD_some, hd]
  obtain ⟨d, hd⟩ : ∃ d, s.dims[i]? = some d :=
    ⟨_, List.getElem?_eq_getElem (hlength ▸ (List.getElem?_eq_some_iff.1 hfs).1)⟩
  obtain ⟨more, hmore, hjoined, hopen⟩ := h.joined i fs hfs
  obtain ⟨hne, hopen⟩ := hopen hchanged
  rw [hdimOf hd] at hjoined hopen
  have hcoverage : ∀ {j : Nat} {gs : List Nat} {e : DimSharding} {more : List AxisRef}
      (name : String) (c : Nat), s.dims[j]? = some e →
      AllValid m more → mergeAdjacent m (x.joined gs) = mergeAdjacent m (e.axes ++ more) →
      coverage m name c (x.joined gs) = coverage m name c e.axes + coverage m name c more := by
    intro j gs e more name c he hmore heq
    rw [← coverage_append, ← coverage_mergeAdjacent (h.proper.allValid_joined gs), heq,
      coverage_mergeAdjacent (allValid_append.2 ⟨hs.allValid_axes he, hmore⟩)]
  refine TensorSharding.exists_refineDim hm hs hd hopen hmore hne ?_ fun name c hc => ?_
  · rw [dimAxes_eq, Mapping.factorsOf_eq hfs, mergeAdjacent_mergeAdjacent]
    exact hjoined
  · -- all dimensions cover together no more than the tensor claims, which is no place twice
    have hsum := coverage_flatMap_add_le (x := x) (m := m)
      (n := coverage m name c more) name c hlength (fun j gs e hgs he => by
        obtain ⟨more', hmore', hjoined', -⟩ := h.joined j gs hgs
        rw [hdimOf he] at hjoined'
        rw [hcoverage name c he hmore' hjoined']
        exact Nat.le_add_right ..) hfs hd (Nat.le_of_eq (hcoverage name c hd hmore hjoined).symm)
    have hall := coverage_flatMap_joined_le (x := x) (m := m) hr.nodup name c
    have hapart := h.proper.apart name c
    have hused := coverage_perm (m := m) (perm_usedAxes hd) name c
    simp only [claims, coverage_append, h.replicated, h.unreduced, Option.map_some,
      Option.getD_some] at hapart
    simp only [usedAxes, TensorSharding.dimAxes, coverage_append] at hused
    omega

end accept

end TensorFactors
end MeshSharding
