import MeshSharding.Proofs.Propagation.Saturation

/-! Legibility. The factors of a dimension are filled in order: one takes axes only if those before
it are full and those behind it are empty. So the axes that are joined for the dimension can be told
apart again. -/
namespace MeshSharding

open AxisList

namespace Share.Takes

variable {m : Mesh} {n : Nat} {l : List AxisRef} {share : Share}

/-- Axes that divide the factor are all taken. -/
theorem of_dvd (hm : m.NoUnitAxes) (hl : AllValid m l) (hn : 0 < n) (h : totalSize m l ∣ n) :
    Takes m n l ⟨l, [], []⟩ := by
  induction l generalizing n with
  | nil => exact .nil n
  | cons a l ih =>
    rw [allValid_cons] at hl
    rw [totalSize_cons] at h
    have ha : a.size m ∣ n := Nat.dvd_trans (Nat.dvd_mul_right ..) h
    have hle := Nat.le_of_dvd hn ha
    exact .next (Nat.lt_of_lt_of_le (hl.1.one_lt_size hm) hle) ha
      (ih hl.2 (Nat.div_pos hle hl.1.size_pos) (Nat.dvd_div_of_mul_dvd h))

/-- Nothing overflows a factor that is full. -/
theorem overflow_eq_nil (h : Takes m n l share) (hl : AllValid m l)
    (hfull : totalSize m share.axes = max n 1) : share.overflow = [] := by
  induction h with
  | nil | full | cut => rfl
  | @next n a l x o rest hn hd h ih =>
    rw [allValid_cons] at hl
    have hq : 0 < n / a.size m := Nat.div_pos (Nat.le_of_dvd (by omega) hd) hl.1.size_pos
    refine ih hl.2 (Nat.eq_of_mul_eq_mul_left hl.1.size_pos ?_)
    rw [totalSize_cons] at hfull
    rw [hfull, Nat.max_eq_left hq, Nat.mul_div_cancel' hd]
    omega
  | misfit hn hd h =>
    simp only [totalSize_cons, totalSize_nil, Nat.mul_one] at hfull
    exact absurd ⟨1, by omega⟩ hd

end Share.Takes

namespace Portion

variable {m : Mesh} {n : Nat} {w : Portion}

theorem fits_of_dvd (hm : m.NoUnitAxes) (hw : AllValid m w.axes) (hn : 0 < n)
    (h : totalSize m w.axes ∣ n) (ho : w.overflow = []) : w.Fits m n := by
  have hall : w.all = w.axes := by simp [all, ho]
  refine ⟨⟨mergeAdjacent m w.axes, [], []⟩, ?_, ⟨(mergeAdjacent_mergeAdjacent _).symm, ?_⟩, rfl⟩
  · rw [hall, Share.take_eq_ok_iff hw.mergeAdjacent]
    refine .of_dvd hm hw.mergeAdjacent hn ?_
    rwa [totalSize_mergeAdjacent]
  · rw [ho]

/-- A portion that fits the factor and has its size fills it. -/
theorem Fits.fills (h : w.Fits m n) (hw : AllValid m w.all) (hfull : totalSize m w.axes = max n 1) :
    w.Fills m n := by
  obtain ⟨share, htake, hsame, -⟩ := h
  have htakes := (Share.take_eq_ok_iff hw.mergeAdjacent).1 htake
  have ho : share.overflow = [] := by
    refine htakes.overflow_eq_nil hw.mergeAdjacent ?_
    rw [← totalSize_mergeAdjacent, ← hsame.1, totalSize_mergeAdjacent, hfull]
  have hsame := hsame.2
  rw [ho, mergeAdjacent_nil, mergeAdjacent_eq_nil_iff] at hsame
  exact ⟨hfull, hsame⟩

end Portion

section filled

variable {m : Mesh} {r : Rule} {want want' : Nat → Portion} {fs : List Nat} {k place : Nat}
  {w : Portion}

theorem Filled.congr (h : Filled m r want fs) (heq : ∀ k ∈ fs, want' k = want k) :
    Filled m r want' fs := by
  induction fs with
  | nil => trivial
  | cons f rest ih =>
    rw [List.forall_mem_cons] at heq
    cases rest with
    | nil =>
      rw [Filled, heq.1]
      exact h
    | cons g rest =>
      obtain ⟨hfit, hfill, hrest⟩ := h
      rw [Filled, heq.1]
      exact ⟨hfit, hfill.imp_right fun hall j hj => heq.2 j hj ▸ hall j hj, ih hrest heq.2⟩

/-- A factor takes another portion if those before it are full and those behind it are empty. -/
theorem Filled.update (h : Filled m r want fs) (hn : fs.Nodup) (hk : fs[place]? = some k)
    (hmajor : ∀ j ∈ fs.take place, (want j).Fills m (r.capacityOf j))
    (hminor : ∀ j ∈ fs.drop (place + 1), (want j).all = []) (hw : w.overflow = [])
    (hfit : fs.getLast? ≠ some k → w.Fits m (r.capacityOf k)) :
    Filled m r (Function.update want k w) fs := by
  induction fs generalizing place with
  | nil => cases hk
  | cons f rest ih =>
    rw [List.nodup_cons] at hn
    cases place with
    | zero =>
      cases hk
      have hother : ∀ j ∈ rest, Function.update want k w j = want j := by
        rintro j hj
        refine Function.update_of_ne ?_ ..
        rintro rfl
        exact hn.1 hj
      cases rest with
      | nil =>
        rw [Filled, Function.update_self]
        exact hw
      | cons g rest =>
        have hlast : (k :: g :: rest).getLast? ≠ some k := fun hlast =>
          hn.1 (List.mem_of_getLast? (by rwa [List.getLast?_cons_cons] at hlast))
        refine ⟨?_, .inr fun j hj => ?_, h.2.2.congr hother⟩
        · rw [Function.update_self]
          exact hfit hlast
        · rw [hother j hj]
          exact hminor j hj
    | succ place =>
      rw [List.getElem?_cons_succ] at hk
      have hne : f ≠ k := by
        rintro rfl
        exact hn.1 (List.mem_of_getElem? hk)
      cases rest with
      | nil => cases hk
      | cons g rest =>
        rw [List.getLast?_cons_cons] at hfit
        rw [List.take_succ_cons, List.forall_mem_cons] at hmajor
        refine ⟨?_, .inl ?_, ih h.2.2 hn.2 hk hmajor.2 hminor hfit⟩
        · rw [Function.update_of_ne hne]
          exact h.1
        · rw [Function.update_of_ne hne]
          exact hmajor.1

/-- All factors but the last one hold what fits them. -/
theorem Filled.fits (h : Filled m r want fs) (hk : k ∈ fs.dropLast) :
    (want k).Fits m (r.capacityOf k) := by
  induction fs with
  | nil => cases hk
  | cons f rest ih =>
    cases rest with
    | nil => cases hk
    | cons g rest =>
      rw [List.dropLast_cons_cons, List.mem_cons] at hk
      rcases hk with rfl | hk
      · exact h.1
      · exact ih h.2.2 hk

end filled

namespace Rule

variable {r : Rule}

theorem capacityOf_eq {k n : Nat} (h : r.sizeOf? k = some n) : r.capacityOf k = n := by
  rw [capacityOf, h]
  rfl

theorem capacityOf_pos (h : ∀ f ∈ r.factors, 0 < f.size) (k : Nat) : 0 < r.capacityOf k := by
  rw [capacityOf, sizeOf?]
  cases hk : r.factors[k]? with
  | none => exact Nat.one_pos
  | some f => exact h f (List.mem_of_getElem? hk)

end Rule

namespace FactorStep

variable {s : FactorStep} {size shards : Nat} {used l more : List AxisRef}

/-- A factor that is not the minor-most one is cut evenly by the axes that it takes. -/
theorem dvd_of_grow (hl : AllValid s.mesh l)
    (h : s.grow size false used shards l = .ok more) (hne : more ≠ []) :
    shards * totalSize s.mesh more ∣ size := by
  induction l generalizing shards more with
  | nil =>
    cases h
    exact absurd rfl hne
  | cons a rest ih =>
    rw [allValid_cons] at hl
    obtain rfl | ⟨tail, hdvd, htail, rfl⟩ | ⟨hminor, -⟩ | ⟨parts, hdvd, hparts, rfl⟩ :=
      grow_cons_eq_ok h
    · exact absurd rfl hne
    · rw [totalSize_cons, ← Nat.mul_assoc]
      by_cases htail' : tail = []
      · subst htail'
        simpa using hdvd
      · exact ih hl.2 htail htail'
    · cases hminor
    · -- the part is the greatest one that the rest of the factor allows
      obtain ⟨-, -, -, -, hsize⟩ := AxisRef.split_eq_some hl.1 hparts
      rw [totalSize_cons, hsize, totalSize_nil, Nat.mul_one]
      refine Nat.dvd_trans (Nat.mul_dvd_mul_left shards (Nat.gcd_dvd_left ..)) ?_
      rw [Nat.mul_div_cancel' hdvd]

/-- What it has then fits it. -/
theorem fits_of_grow {r : Rule} {k : Nat} {axes : List AxisRef} (hm : s.mesh.NoUnitAxes)
    (hsizes : ∀ f ∈ r.factors, 0 < f.size) (hv : AllValid s.mesh (axes ++ more))
    (hsize : r.sizeOf? k = some size) (hl : AllValid s.mesh l)
    (h : s.grow size false used (totalSize s.mesh axes) l = .ok more) (hne : more ≠ []) :
    Portion.Fits s.mesh (r.capacityOf k) ⟨axes ++ more, []⟩ := by
  refine Portion.fits_of_dvd hm hv (Rule.capacityOf_pos hsizes k) ?_ rfl
  rw [totalSize_append, Rule.capacityOf_eq hsize]
  exact dvd_of_grow hl h hne

end FactorStep

namespace TensorSharding

/-- The references of every dimension are merged. -/
def MergedDims (m : Mesh) (s : TensorSharding) : Prop :=
  ∀ d ∈ s.dims, mergeAdjacent m d.axes = d.axes

theorem mergeAdjacent_dimOf {m : Mesh} {s : Option TensorSharding}
    (hs : ∀ x ∈ s, x.MergedDims m) (i : Nat) :
    mergeAdjacent m (dimOf s i).axes = (dimOf s i).axes := by
  rcases dimOf_eq_or_mem s i with hd | ⟨x, hx, hd⟩
  · rw [hd]
    rfl
  · exact hs x hx _ hd

end TensorSharding

open TensorSharding

namespace TensorFactors

variable {m : Mesh} {r : Rule} {mapping : Mapping} {s : Option TensorSharding}
  {x : TensorFactors} {k i place : Nat} {f : FactorSharding} {fs : List Nat}
  {more : List AxisRef} {changed : Nat → Prop}

/-- What a factor holds, which is nothing if it is not there. -/
def portion (x : TensorFactors) (k : Nat) : Portion :=
  ((x.factor? k).map .ofFactor).getD ⟨[], []⟩

theorem portion_eq (h : x.factor? k = some f) : x.portion k = .ofFactor f := by
  rw [portion, h]
  rfl

theorem all_portion (x : TensorFactors) (k : Nat) : (x.portion k).all = held x.factors k := by
  rw [portion, held, factor?]
  cases Sorted.find? k x.factors <;> rfl

theorem Proper.allValid_portion (h : x.Proper m) (k : Nat) : AllValid m (x.portion k).all := by
  rw [all_portion]
  exact h.allValid_held k

theorem portion_setAxes (hf : x.factor? k = some f) (axes : List AxisRef) :
    (x.setAxes k axes).portion = Function.update x.portion k ⟨axes, f.overflow⟩ := by
  funext j
  unfold portion
  rw [factor?_setAxes]
  by_cases hj : j = k
  · subst hj
    rw [if_pos rfl, hf, Function.update_self]
    rfl
  · rw [if_neg hj, Function.update_of_ne hj]

/-- The factors of every dimension can be read from its axes: each holds what it takes of them. -/
structure Legible (m : Mesh) (r : Rule) (mapping : Mapping) (x : TensorFactors) : Prop where
  mapped : ∀ k, (x.factor? k).isSome → k ∈ mapping.dims.flatten
  filled : ∀ fs ∈ mapping.dims, Filled m r x.portion fs

/-- The factors of a sharding whose dimensions are merged can be read from them. -/
theorem legible_project (hs : ∀ x ∈ s, x.Valid m) (hmerged : ∀ x ∈ s, x.MergedDims m)
    {shape : Shape} (hr : r.Maps mapping shape) (h : project m r mapping s = .ok x) :
    x.Legible m r mapping := by
  refine ⟨fun k hk => ?_, fun fs hfs => ?_⟩
  · by_contra hnot
    rw [factor?_project_eq_none (fun x hx => (hs x hx).allValid_dims) hr.nodup h hnot] at hk
    cases hk
  · obtain ⟨i, hi⟩ := List.getElem?_of_mem hfs
    obtain ⟨part, hpart, hkeys, hall⟩ := exists_part hs hr.nodup h hi
    obtain ⟨-, hvalid, hjoined⟩ := dealOut_spec (allValid_dimOf hs i) hpart
    have hportion : ∀ e ∈ part, x.portion e.1 = .ofFactor e.2 := fun e he => portion_eq (hall e he)
    have hall : ∀ k ∈ fs, AllValid m (x.portion k).all := by
      intro k hk
      obtain ⟨e, he, rfl⟩ := List.mem_map.1 (hkeys ▸ hk)
      rw [hportion e he]
      exact hvalid e he
    have haxes : (dimOf s i).axes = mergeAdjacent m (fs.flatMap fun k => (x.portion k).all) := by
      rw [← mergeAdjacent_dimOf hmerged i, ← hjoined (hr.mapped fs hfs), ← hkeys, List.flatMap_map]
      exact mergeAdjacent_flatMap_congr fun e he => by rw [hportion e he]
    refine (same_dealOut_iff hall haxes hpart).1 fun e he => ?_
    rw [hportion e he]
    exact ⟨rfl, rfl⟩

/-- A factor that is not the last one of its dimension is full if its axes have its size. -/
theorem Legible.fills (h : x.Legible m r mapping) (hp : x.Proper m) (hfs : fs ∈ mapping.dims)
    (hk : k ∈ fs.dropLast) (hf : x.factor? k = some f)
    (hfull : r.sizeOf? k = some (totalSize m f.axes)) :
    (x.portion k).Fills m (r.capacityOf k) := by
  have hfits := (h.filled fs hfs).fits hk
  have hvalid := hp.allValid_portion k
  rw [portion_eq hf] at hfits hvalid ⊢
  refine hfits.fills hvalid ?_
  rw [Rule.capacityOf_eq hfull]
  exact (Nat.max_eq_left (totalSize_pos (allValid_append.1 hvalid).1)).symm

/-- The factors can still be read if one takes axes behind full ones and before empty ones. -/
theorem Legible.setAxes (h : x.Legible m r mapping) (hn : mapping.dims.flatten.Nodup)
    (hfs : mapping.dims[i]? = some fs) (hk : fs[place]? = some k) (hf : x.factor? k = some f)
    (hoverflow : f.overflow = [])
    (hmajor : ∀ j ∈ fs.take place, (x.portion j).Fills m (r.capacityOf j))
    (hminor : ∀ j ∈ fs.drop (place + 1), held x.factors j = [])
    (hfit : fs.getLast? ≠ some k → Portion.Fits m (r.capacityOf k) ⟨f.axes ++ more, []⟩) :
    (x.setAxes k (f.axes ++ more)).Legible m r mapping := by
  refine ⟨fun j hj => h.mapped j ?_, fun gs hgs => ?_⟩
  · rw [factor?_setAxes] at hj
    split at hj
    · rwa [Option.isSome_map] at hj
    · exact hj
  · rw [portion_setAxes hf, hoverflow]
    have hfilled := h.filled gs hgs
    by_cases hmem : k ∈ gs
    · obtain ⟨j, hj⟩ := List.getElem?_of_mem hgs
      obtain rfl := Mapping.index_eq_of_mem hn hj hmem hfs (List.mem_of_getElem? hk)
      cases hfs.symm.trans hj
      refine hfilled.update ((List.nodup_flatten.1 hn).1 fs hgs) hk hmajor (fun j hj => ?_) rfl hfit
      rw [all_portion]
      exact hminor j hj
    · refine hfilled.congr fun j hj => Function.update_of_ne ?_ ..
      rintro rfl
      exact hmem hj

end TensorFactors

/-- Every dimension of every tensor can be read. -/
def Projection.Legible (m : Mesh) (r : Rule) (p : Projection) : Prop :=
  ∀ t x mapping, p.tensor? t = some x → r.mapping? t = some mapping → x.Legible m r mapping

namespace FactorStep

variable {s : FactorStep} {r : Rule} {p q : Projection} {d : Direction} {k : Nat}
  {towards more : List AxisRef} {t : TensorRef} {us : List FactorUpdate} {a : AxisRef}
  {shardings : TensorRef → Option TensorSharding}

theorem legible_ofShardings {sig : Signature} (hverify : r.verify sig = .ok ()) {m : Mesh}
    {shardings : Side → List (Option TensorSharding)}
    (hs : ∀ t, ∀ x ∈ Projection.shardingAt shardings t, x.Valid m)
    (hmerged : ∀ t, ∀ x ∈ Projection.shardingAt shardings t, x.MergedDims m)
    (hp : Projection.ofShardings m r (shardings .operand) (shardings .result) = .ok p) :
    p.Legible m r := by
  intro t x mapping hx hmapping
  obtain ⟨_, hmapping', hproject⟩ := (Projection.tensor?_eq_some_iff hp).1 hx
  cases hmapping.symm.trans hmapping'
  obtain ⟨_, -, hmaps⟩ := Rule.exists_maps_of_verify hverify hmapping
  exact TensorFactors.legible_project (hs t) (hmerged t) hmaps hproject

/-- What a target takes can be read, like all that was there. -/
theorem Lengthens.legible_setAxes (h : Lengthens s.mesh r shardings us p)
    (hl : p.Legible s.mesh r) (hm : s.mesh.NoUnitAxes)
    (hr : ∀ t mapping, r.mapping? t = some mapping → mapping.dims.flatten.Nodup)
    (hsizes : ∀ f ∈ r.factors, 0 < f.size) (hv : AllValid s.mesh towards)
    (ha : Apart s.mesh towards) (hext : s.extension r p k towards t = .ok (a :: more)) :
    (p.setAxes t k (axesOf p t k ++ a :: more)).Legible s.mesh r := by
  obtain ⟨mapping, dim, place, fs, x, f, hmapping, hx, hexpands⟩ := exists_expands hext
  obtain ⟨rest, size, hstrip, hsize, hgrow⟩ := hexpands.grows
  have hfs := hexpands.dim
  have hk := hexpands.placed
  have hf := hexpands.factor
  have hlegible := hl t x mapping hx hmapping
  have hlengthens := h.tensors t x mapping hx hmapping
  have hn := hr t mapping hmapping
  have haxes : axesOf p t k = f.axes := by simp [axesOf, Projection.factor?, hx, hf]
  obtain ⟨y, g, hy, hg, hnew, -⟩ := takes_of_extension h.proper hv ha hext
  cases hx.symm.trans hy
  cases hf.symm.trans hg
  have hfills : ∀ j ∈ fs.take place, (x.portion j).Fills s.mesh (r.capacityOf j) := by
    intro j hj
    obtain ⟨y, hy, hfull⟩ := hexpands.major j hj
    have hlast : j ∈ fs.dropLast := by
      rw [List.dropLast_eq_take]
      refine List.take_subset_take_left fs ?_ hj
      have := (List.getElem?_eq_some_iff.1 hk).1
      omega
    exact hlegible.fills hlengthens.proper (List.mem_of_getElem? hfs) hlast hy hfull
  have hfit : fs.getLast? ≠ some k →
      Portion.Fits s.mesh (r.capacityOf k) ⟨f.axes ++ a :: more, []⟩ := by
    intro hlast
    obtain ⟨_, hf', -, -, hminorMost⟩ := hlengthens.factors dim fs k hfs (List.mem_of_getElem? hk)
    cases hf.symm.trans hf'
    rw [Bool.eq_false_iff.2 (mt hminorMost hlast)] at hgrow
    have hrest := (stripPrefix?_eq_some hv (allValid_append.1 hnew).1 hstrip).1
    exact fits_of_grow hm hsizes hnew hsize hrest hgrow (List.cons_ne_nil a more)
  intro t' y mapping' hy hmapping'
  rw [Projection.tensor?_setAxes] at hy
  split at hy
  · rename_i heq
    subst heq
    cases hmapping.symm.trans hmapping'
    rw [hx, Option.map_some, haxes] at hy
    cases hy
    exact hlegible.setAxes hn hfs hk hf hexpands.overflow hfills
      (hlengthens.held_eq_nil hn hfs hk hf hexpands.minor) hfit
  · exact hl t' y mapping' hy hmapping'

/-- After a step the dimensions can still be read. -/
theorem legible_propagate (hm : s.mesh.NoUnitAxes)
    (hr : ∀ t mapping, r.mapping? t = some mapping → mapping.dims.flatten.Nodup)
    (hsizes : ∀ f ∈ r.factors, 0 < f.size) (h : Lengthens s.mesh r shardings [] p)
    (hl : p.Legible s.mesh r) (hq : s.propagate r d p = .ok (q, us)) : q.Legible s.mesh r :=
  (propagate_preserves
    (P := fun p us => Lengthens s.mesh r shardings us p ∧ p.Legible s.mesh r)
    (fun h => h.1.proper)
    (fun h _ _ hv ha hext => ⟨h.1.setAxes _ hr hv ha hext,
      h.1.legible_setAxes h.2 hm hr hsizes hv ha hext⟩) ⟨h, hl⟩ hq).2

end FactorStep
end MeshSharding
