import MeshSharding.Proofs.Propagation.Lengthening

/-! Projections and the spelling of a layout. The factors of a dimension hold all of its axes in
their order, whether an axis fits, is split or overflows. What each of them holds depends on how the
axes are written only where a factor overflows within an axis: there the parts are placed one by
one, while the merged reference may be split. -/
namespace MeshSharding

open AxisList

namespace AxisList

variable {m : Mesh} {l : List AxisRef}

/-- The last merged reference ends where the last reference does. -/
theorem exists_getLast?_mergeAdjacent {a : AxisRef} (h : a ∈ l.getLast?) :
    ∃ b ∈ (mergeAdjacent m l).getLast?, ∀ c : AxisRef, b.canMerge c m = a.canMerge c m := by
  induction l with
  | nil => cases h
  | cons x rest ih =>
    rw [mergeAdjacent_cons]
    cases rest with
    | nil =>
      cases h
      exact ⟨x, rfl, fun _ => rfl⟩
    | cons y rest =>
      rw [List.getLast?_cons_cons] at h
      obtain ⟨b, hb, hends⟩ := ih h
      generalize mergeAdjacent m (y :: rest) = joint at hb
      cases joint with
      | nil => cases hb
      | cons z joint =>
        by_cases hm : x.canMerge z m = true
        · rw [push_cons_of_canMerge hm]
          cases joint with
          | nil =>
            cases hb
            exact ⟨_, rfl, fun c => (AxisRef.canMerge_merge_left hm c).trans (hends c)⟩
          | cons w joint => exact ⟨b, by simpa using hb, hends⟩
        · rw [push_cons_of_not hm]
          exact ⟨b, by simpa using hb, hends⟩

/-- The first merged reference begins where the first reference does. -/
theorem exists_head?_mergeAdjacent {b : AxisRef} (h : b ∈ l.head?) :
    ∃ c ∈ (mergeAdjacent m l).head?, ∀ a : AxisRef, a.canMerge c m = a.canMerge b m := by
  cases l with
  | nil => cases h
  | cons x rest =>
    obtain rfl : x = b := Option.some.inj h
    cases hjoint : mergeAdjacent m (x :: rest) with
    | nil => exact absurd (mergeAdjacent_eq_nil_iff.1 hjoint) (List.cons_ne_nil x rest)
    | cons c joint =>
      obtain ⟨hname, hpre⟩ := head_of_mergeAdjacent_cons hjoint
      exact ⟨c, rfl, fun a => by simp [AxisRef.canMerge, hname, hpre]⟩

end AxisList

namespace Portion

/-- The axes that overflow do not go on with the last axis of the factor. -/
def Unbroken (m : Mesh) (w : Portion) : Prop :=
  ∀ a ∈ w.axes.getLast?, ∀ b ∈ w.overflow.head?, ¬ a.canMerge b m = true

end Portion

namespace Share.Takes

variable {m : Mesh} {n : Nat} {a : AxisRef} {l x o x' o' rest rest' : List AxisRef}

theorem unique {share share' : Share} (h : Takes m n l share) (h' : Takes m n l share')
    (hl : AllValid m l) : share = share' :=
  Except.ok.inj (((take_eq_ok_iff hl).2 h).symm.trans ((take_eq_ok_iff hl).2 h'))

/-- An axis that fits is taken also where it is merged with the first one behind it. -/
theorem push (hn : 1 < n) (hd : a.size m ∣ n) (ha : a.Valid m)
    (h : Takes m (n / a.size m) l ⟨x, o, []⟩) :
    Takes m n (AxisList.push m a l) ⟨AxisList.push m a x, o, []⟩ := by
  cases h with
  | nil => exact .next hn hd (.nil _)
  | @next _ b _ _ _ _ hn' hd' h' =>
    by_cases hm : a.canMerge b m = true
    · rw [push_cons_of_canMerge hm, push_cons_of_canMerge hm]
      rw [Nat.div_div_eq_div_mul, ← AxisRef.merge_size] at h'
      refine .next hn ?_ h'
      rw [AxisRef.merge_size]
      exact Nat.mul_dvd_of_dvd_div hd hd'
    · rw [push_cons_of_not hm, push_cons_of_not hm]
      exact .next hn hd (.next hn' hd' h')
  | @misfit _ b _ hn' hd' hnot =>
    by_cases hm : a.canMerge b m = true
    · rw [push_cons_of_canMerge hm, push_cons_of_canMerge hm]
      obtain ⟨q, rfl⟩ := hd
      have hpos := ha.size_pos
      rw [Nat.mul_div_cancel_left _ hpos] at hn' hd' hnot
      refine .misfit hn ?_ ?_ <;> rw [AxisRef.merge_size]
      · rwa [Nat.mul_dvd_mul_iff_left hpos]
      · rwa [Nat.mul_dvd_mul_iff_left hpos]
    · rw [push_cons_of_not hm, push_cons_of_not hm]
      exact .next hn hd (.misfit hn' hd' hnot)

/-- A factor that takes everything takes the same of the merged list, if it is not broken. -/
theorem mergeAdjacent_of_rest_nil (h : Takes m n l ⟨x, o, []⟩) (hl : AllValid m l)
    (hu : Portion.Unbroken m ⟨x, o⟩) :
    Takes m n (mergeAdjacent m l) ⟨mergeAdjacent m x, mergeAdjacent m o, []⟩ := by
  generalize hs : (⟨x, o, []⟩ : Share) = share at h
  induction h generalizing x with
  | nil =>
    cases hs
    exact .nil _
  | full | cut => cases hs
  | @next n a l y o' _ hn hd h ih =>
    cases hs
    rw [allValid_cons] at hl
    have htail : Portion.Unbroken m ⟨y, o⟩ := by
      intro b hb
      cases y with
      | nil => cases hb
      | cons => exact hu b (by simpa using hb)
    rw [mergeAdjacent_cons, mergeAdjacent_cons]
    exact (ih hl.2 htail rfl).push hn hd hl.1
  | @misfit n a l hn hd hnot =>
    cases hs
    rw [mergeAdjacent_cons]
    cases o with
    | nil => exact .misfit hn hd hnot
    | cons b rest =>
      obtain ⟨c, hc, hbegins⟩ := exists_head?_mergeAdjacent (m := m) (l := b :: rest) rfl
      obtain ⟨joint, hjoint⟩ := List.head?_eq_some_iff.1 hc
      have hm := hu a rfl b rfl
      rw [← hbegins] at hm
      rw [hjoint, push_cons_of_not hm]
      exact .misfit hn hd hnot

/-- A factor that is not broken takes the same of the merged list, and leaves the same. -/
theorem mergeAdjacent (h : Takes m n l ⟨x, o, rest⟩) (hl : AllValid m l)
    (hu : Portion.Unbroken m ⟨x, o⟩) : Takes m n (mergeAdjacent m l)
      ⟨mergeAdjacent m x, mergeAdjacent m o, mergeAdjacent m rest⟩ := by
  by_cases hrest : rest = []
  · subst hrest
    exact h.mergeAdjacent_of_rest_nil hl hu
  · obtain ⟨y, ⟨hx, ho⟩, htake⟩ :=
      Portion.exists_take_merged hl ((take_eq_ok_iff hl).2 h) hrest
    have hmerged := (take_eq_ok_iff hl.mergeAdjacent).1 htake
    have hy := (hmerged.separated hl.mergeAdjacent (separated_mergeAdjacent l)).1
    have ho : AxisList.mergeAdjacent m o = [] := ho
    have hx : AxisList.mergeAdjacent m x = y := hx.trans hy.mergeAdjacent_eq
    rwa [ho, hx]

/-- A factor that takes the same of the merged list is not broken. -/
theorem unbroken_of_same (h : Takes m n l ⟨x, o, rest⟩) (hl : AllValid m l)
    (h' : Takes m n (AxisList.mergeAdjacent m l) ⟨x', o', rest'⟩)
    (hsame : Portion.Same m ⟨x, o⟩ ⟨x', o'⟩) : Portion.Unbroken m ⟨x, o⟩ := by
  intro a ha b hb hm
  have hne : o ≠ [] := by
    rintro rfl
    cases hb
  have hne' : o' ≠ [] := by
    rintro rfl
    exact hne (mergeAdjacent_eq_nil_iff.1 hsame.2)
  -- where axes overflow, none are left for other factors
  obtain rfl : rest = [] := (h.stops hl).resolve_right fun hfull => hne hfull.2
  obtain rfl : rest' = [] := (h'.stops hl.mergeAdjacent).resolve_right fun hfull => hne' hfull.2
  have hjoint : AxisList.mergeAdjacent m l = x' ++ o' := h'.eq_append
  have hsep : Separated m (x' ++ o') := hjoint ▸ separated_mergeAdjacent l
  obtain ⟨hx, ho, hbetween⟩ := List.isChain_append.1 hsep
  have hsx : AxisList.mergeAdjacent m x = x' := hsame.1.trans (Separated.mergeAdjacent_eq hx)
  have hso : AxisList.mergeAdjacent m o = o' := hsame.2.trans (Separated.mergeAdjacent_eq ho)
  obtain ⟨a', ha', hends⟩ := exists_getLast?_mergeAdjacent (m := m) ha
  obtain ⟨b', hb', hbegins⟩ := exists_head?_mergeAdjacent (m := m) hb
  rw [hsx] at ha'
  rw [hso] at hb'
  exact hbetween a' ha' b' hb' (by rw [hends, hbegins, hm])

end Share.Takes

namespace TensorFactors

variable {m : Mesh} {r : Rule} {mapping : Mapping} {sig : Signature} {t : TensorRef}
  {s : TensorSharding} {x y : TensorFactors} {closed closed' : Bool} {fs : List Nat}
  {l : List AxisRef} {entries entries' : List (Nat × FactorSharding)}

/-- A sharding that is projected onto the factors of a rule has the axes that are put together from
them: nothing is lost, doubled or moved. -/
theorem dimAxes_project (hr : r.verify sig = .ok ()) (hmapping : r.mapping? t = some mapping)
    (hrank : s.rank = mapping.rank) (hs : s.ValidDims m) :
    ∃ x, project m r mapping (some s) = .ok x ∧ ∀ (dim : Nat) (d : DimSharding),
      s.dims[dim]? = some d → x.dimAxes m mapping dim = mergeAdjacent m d.axes := by
  obtain ⟨_, -, hmaps⟩ := Rule.exists_maps_of_verify hr hmapping
  obtain ⟨x, hx⟩ := exists_project (s := some s) (by simpa using hs) hmaps.known
  refine ⟨x, hx, fun dim d hd => ?_⟩
  have hlt : dim < mapping.dims.length := by
    rw [← Mapping.rank, ← hrank]
    exact (List.getElem?_eq_some_iff.1 hd).1
  have hfs := List.getElem?_eq_getElem hlt
  obtain ⟨part, hpart, hall⟩ := factor?_project hs hmaps.nodup hx hfs hd
  obtain ⟨hkeys, -, hjoin⟩ := dealOut_spec (hs d (List.mem_of_getElem? hd)) hpart
  rw [dimAxes_eq, Mapping.factorsOf_eq hfs,
    ← hjoin (hmaps.mapped _ (List.mem_of_getElem? hfs)), ← hkeys, List.flatMap_map]
  congr 1
  exact List.flatMap_congr fun e he => held_eq (hall e he)

/-- One factor is split and another one overflows. -/
theorem dimAxes_project_grid :
    let m : Mesh := .grid 8 6 (by decide) (by decide)
    let r := Rule.ofSizes [2, 6, 4, 12] [⟨[[0, 1], [2, 3]]⟩] []
    let s := TensorSharding.ofDims "mesh"
      [.ofAxes [.sub "x" 1 4] false, .ofAxes [.full "y", .sub "x" 4 2] false]
    r.verify ⟨[[12, 48]], []⟩ = .ok () ∧ r.mapping? ⟨.operand, 0⟩ = some ⟨[[0, 1], [2, 3]]⟩ ∧
      s.rank = 2 ∧ s.ValidDims m ∧
      ∃ x, project m r ⟨[[0, 1], [2, 3]]⟩ (some s) = .ok x ∧ ∀ (dim : Nat) (d : DimSharding),
        s.dims[dim]? = some d → x.dimAxes m ⟨[[0, 1], [2, 3]]⟩ dim = mergeAdjacent m d.axes := by
  intro m r s
  have hr : r.verify ⟨[[12, 48]], []⟩ = .ok () := by decide
  have hmapping : r.mapping? ⟨.operand, 0⟩ = some ⟨[[0, 1], [2, 3]]⟩ := rfl
  have hs : s.ValidDims m := by
    unfold TensorSharding.ValidDims AllValid AxisRef.Valid
    decide
  exact ⟨hr, hmapping, rfl, hs, dimAxes_project hr hmapping rfl hs⟩

/-- The factors of a dimension take the same of the merged axes exactly if none of them is broken. -/
theorem forall₂_same_dealOut_iff (hl : AllValid m l) (h : dealOut m r closed fs l = .ok entries)
    (h' : dealOut m r closed' fs (mergeAdjacent m l) = .ok entries') :
    List.Forall₂ (fun e e' => (Portion.ofFactor e.2).Same m (.ofFactor e'.2)) entries entries' ↔
      ∀ e ∈ entries, (Portion.ofFactor e.2).Unbroken m := by
  induction fs generalizing l entries entries' with
  | nil =>
    cases h
    cases h'
    simp
  | cons f rest ih =>
    cases rest with
    | nil =>
      cases h
      cases h'
      simp [Portion.Same, Portion.ofFactor, Portion.Unbroken]
    | cons g rest =>
      obtain ⟨⟨x, o, y⟩, others, htake, hothers, rfl⟩ := dealOut_cons_eq_ok h
      obtain ⟨share', others', htake', hothers', rfl⟩ := dealOut_cons_eq_ok h'
      have htakes := (Share.take_eq_ok_iff hl).1 htake
      have htakes' := (Share.take_eq_ok_iff hl.mergeAdjacent).1 htake'
      have hy := (allValid_append.1 (htakes.joined hl).2).2
      rw [List.forall₂_cons, List.forall_mem_cons]
      constructor
      · rintro ⟨hsame, hall⟩
        have hu := htakes.unbroken_of_same hl htakes' hsame
        cases (htakes.mergeAdjacent hl hu).unique htakes' hl.mergeAdjacent
        exact ⟨hu, (ih hy hothers hothers').1 hall⟩
      · rintro ⟨hu, hall⟩
        cases (htakes.mergeAdjacent hl hu).unique htakes' hl.mergeAdjacent
        refine ⟨⟨?_, ?_⟩, (ih hy hothers hothers').2 hall⟩
        · exact (mergeAdjacent_mergeAdjacent x).symm
        · exact (mergeAdjacent_mergeAdjacent o).symm

/-- What is dealt out to the same factors is compared factor by factor. -/
theorem forall₂_iff_of_factor? {R : FactorSharding → FactorSharding → Prop}
    (hkeys : entries.map (·.1) = entries'.map (·.1))
    (hx : ∀ e ∈ entries, x.factor? e.1 = some e.2) (hy : ∀ e ∈ entries', y.factor? e.1 = some e.2) :
    List.Forall₂ (fun e e' => R e.2 e'.2) entries entries' ↔
      ∀ e ∈ entries, Option.Rel R (x.factor? e.1) (y.factor? e.1) := by
  induction entries generalizing entries' with
  | nil =>
    rw [List.map_nil, eq_comm, List.map_eq_nil_iff] at hkeys
    subst hkeys
    simp
  | cons e entries ih =>
    cases entries' with
    | nil => cases hkeys
    | cons e' entries' =>
      rw [List.map_cons, List.map_cons, List.cons.injEq] at hkeys
      rw [List.forall_mem_cons] at hx hy
      rw [List.forall₂_cons, List.forall_mem_cons, ih hkeys.2 hx.2 hy.2, hx.1]
      rw [← hkeys.1] at hy
      rw [hy.1, Option.rel_some_some]

/-- A sharding and its canonical form are projected alike exactly if no factor overflows within an
axis. -/
theorem same_project_canonicalized_iff (hr : r.verify sig = .ok ())
    (hmapping : r.mapping? t = some mapping) (hrank : s.rank = mapping.rank) (hs : s.ValidDims m) :
    ∃ x y, project m r mapping (some s) = .ok x ∧
      project m r mapping (some (s.canonicalized m)) = .ok y ∧
      ((∀ k, Option.Rel (fun f g => (Portion.ofFactor f).Same m (.ofFactor g))
          (x.factor? k) (y.factor? k)) ↔
        ∀ k f, x.factor? k = some f → (Portion.ofFactor f).Unbroken m) := by
  obtain ⟨_, -, hmaps⟩ := Rule.exists_maps_of_verify hr hmapping
  have hs' : (s.canonicalized m).ValidDims m := by
    intro d hd
    obtain ⟨e, he, rfl⟩ := List.mem_map.1 hd
    exact (hs e he).mergeAdjacent
  obtain ⟨x, hx⟩ := exists_project (s := some s) (by simpa using hs) hmaps.known
  obtain ⟨y, hy⟩ :=
    exists_project (s := some (s.canonicalized m)) (by simpa using hs') hmaps.known
  have hdim : ∀ (i : Nat) (fs : List Nat), mapping.dims[i]? = some fs →
      ((∀ k ∈ fs, Option.Rel (fun f g => (Portion.ofFactor f).Same m (.ofFactor g))
          (x.factor? k) (y.factor? k)) ↔
        ∀ k ∈ fs, ∀ f, x.factor? k = some f → (Portion.ofFactor f).Unbroken m) := by
    intro i fs hfs
    have hlt : i < s.dims.length := by
      rw [← TensorSharding.rank, hrank]
      exact (List.getElem?_eq_some_iff.1 hfs).1
    have hd : s.dims[i]? = some s.dims[i] := List.getElem?_eq_getElem hlt
    have hd' : (s.canonicalized m).dims[i]?
        = some { s.dims[i] with axes := mergeAdjacent m s.dims[i].axes } := by
      simp [TensorSharding.canonicalized, hd]
    obtain ⟨part, hpart, hall⟩ := factor?_project hs hmaps.nodup hx hfs hd
    obtain ⟨part', hpart', hall'⟩ := factor?_project hs' hmaps.nodup hy hfs hd'
    have hv := hs _ (List.mem_of_getElem? hd)
    have hkeys := (dealOut_spec hv hpart).1
    have hkeys' := (dealOut_spec hv.mergeAdjacent hpart').1
    have hfactors := forall₂_iff_of_factor?
      (R := fun f g => (Portion.ofFactor f).Same m (.ofFactor g)) (hkeys.trans hkeys'.symm) hall
      hall'
    rw [forall₂_same_dealOut_iff hv hpart hpart'] at hfactors
    rw [← hkeys, List.forall_mem_map, List.forall_mem_map, ← hfactors]
    exact forall₂_congr fun e he => by simp [hall e he]
  refine ⟨x, y, hx, hy, fun hall k f hf => ?_, fun hall k => ?_⟩
  · by_cases hk : k ∈ mapping.dims.flatten
    · obtain ⟨i, fs, hfs, hk⟩ := exists_mem_dims hk
      exact (hdim i fs hfs).1 (fun j _ => hall j) k hk f hf
    · rw [factor?_project_eq_none (by simpa using hs) hmaps.nodup hx hk] at hf
      cases hf
  · by_cases hk : k ∈ mapping.dims.flatten
    · obtain ⟨i, fs, hfs, hk⟩ := exists_mem_dims hk
      exact (hdim i fs hfs).2 (fun j _ => hall j) k hk
    · rw [factor?_project_eq_none (by simpa using hs) hmaps.nodup hx hk,
        factor?_project_eq_none (by simpa using hs') hmaps.nodup hy hk]
      exact .none

/-- The parts of an axis fill the first factor as the merged axis does. -/
theorem same_project_canonicalized_iff_grid :
    let m : Mesh := .grid 6 2 (by decide) (by decide)
    let r := Rule.ofSizes [6, 4] [⟨[[0, 1]]⟩] []
    let s := TensorSharding.ofDims "mesh"
      [.ofAxes [.sub "x" 1 3, .sub "x" 3 2, .full "y"] false]
    r.verify ⟨[[24]], []⟩ = .ok () ∧ r.mapping? ⟨.operand, 0⟩ = some ⟨[[0, 1]]⟩ ∧ s.rank = 1 ∧
      s.ValidDims m ∧ ∃ x y, project m r ⟨[[0, 1]]⟩ (some s) = .ok x ∧
        project m r ⟨[[0, 1]]⟩ (some (s.canonicalized m)) = .ok y ∧
        ((∀ k, Option.Rel (fun f g => (Portion.ofFactor f).Same m (.ofFactor g))
            (x.factor? k) (y.factor? k)) ↔
          ∀ k f, x.factor? k = some f → (Portion.ofFactor f).Unbroken m) := by
  intro m r s
  have hr : r.verify ⟨[[24]], []⟩ = .ok () := by decide
  have hmapping : r.mapping? ⟨.operand, 0⟩ = some ⟨[[0, 1]]⟩ := rfl
  have hs : s.ValidDims m := by
    unfold TensorSharding.ValidDims AllValid AxisRef.Valid
    decide
  exact ⟨hr, hmapping, rfl, hs, same_project_canonicalized_iff hr hmapping rfl hs⟩

/-- A part of size 3 overflows a factor of size 2 that the whole axis fills with a part of its own. -/
theorem not_same_project_canonicalized :
    let m : Mesh := .grid 6 2 (by decide) (by decide)
    let r := Rule.ofSizes [2, 6] [⟨[[0, 1]]⟩] []
    let s := TensorSharding.ofDims "mesh" [.ofAxes [.sub "x" 1 3, .sub "x" 3 2] false]
    r.verify ⟨[[12]], []⟩ = .ok () ∧ s.validate m [12] = .ok () ∧
      ∃ x y f g, project m r ⟨[[0, 1]]⟩ (some s) = .ok x ∧
        project m r ⟨[[0, 1]]⟩ (some (s.canonicalized m)) = .ok y ∧
        x.factor? 0 = some f ∧ y.factor? 0 = some g ∧
        equivalent m f.axes g.axes = false ∧ equivalent m f.overflow g.overflow = false := by
  intro m r s
  let broken : FactorSharding := ⟨[.sub "x" 1 3], false, false, [.sub "x" 3 2]⟩
  let split : FactorSharding := ⟨[.sub "x" 1 2], false, false, []⟩
  exact ⟨by decide, by decide, ⟨[(0, broken), (1, ⟨[], false, true, []⟩)], [], []⟩,
    ⟨[(0, split), (1, ⟨[.sub "x" 2 3], false, true, []⟩)], [], []⟩, broken, split,
    eq_ok_of_toOption (by decide), eq_ok_of_toOption (by decide), rfl, rfl, by decide, by decide⟩

end TensorFactors
end MeshSharding
