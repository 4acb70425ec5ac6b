import MeshSharding.Proofs.AxisList.Remainder
import MeshSharding.Proofs.Propagation.ReadBack

/-! How far a target is extended. Outside of conservative mode a factor takes all of the candidate
that is free and fits it, up to an axis that overlaps a used one: of such an axis it takes nothing,
even where a major part of it is free. -/
namespace MeshSharding

namespace AxisList

variable {m : Mesh} {axes part rest : List AxisRef}

theorem totalSize_stripPrefix? (haxes : AllValid m axes) (hpart : AllValid m part)
    (h : stripPrefix? m axes part = some rest) :
    totalSize m axes = totalSize m part * totalSize m rest := by
  obtain ⟨-, hmerge⟩ := stripPrefix?_eq_some haxes hpart h
  rw [← totalSize_mergeAdjacent, ← hmerge, totalSize_mergeAdjacent, totalSize_append]

end AxisList

open AxisList

/-- A continuation of the axes of a factor towards the candidate by axes that are free, as far as
the factor has room for it. -/
structure Surpasses (m : Mesh) (towards used : List AxisRef) (size : Nat)
    (axes longer : List AxisRef) : Prop where
  valid : AllValid m longer
  towards : (stripPrefix? m towards longer).isSome
  further : ∃ more, stripPrefix? m longer axes = some more ∧ more ≠ [] ∧
    ∀ a ∈ more, overlapsAny m a used = false
  fits : totalSize m longer ∣ size

/-- The next axis of the candidate overlaps a used one, but has a major part that is free, and for
which the factor has room. -/
def LeavesPart (m : Mesh) (towards used : List AxisRef) (size : Nat) (axes : List AxisRef) : Prop :=
  ∃ a left n x y, stripPrefix? m towards axes = some (a :: left) ∧
    overlapsAny m a used = true ∧ a.split n m = some (x, y) ∧ overlapsAny m x used = false ∧
    totalSize m axes * x.size m ∣ size

/-- The free part of the next axis continues the axes. -/
theorem LeavesPart.exists_surpasses {m : Mesh} {towards used axes : List AxisRef} {size : Nat}
    (htowards : AllValid m towards) (haxes : AllValid m axes) (hused : AllValid m used)
    (h : LeavesPart m towards used size axes) :
    ∃ longer, Surpasses m towards used size axes longer := by
  obtain ⟨a, left, n, x, y, hstrip, -, hsplit, hfree, hfits⟩ := h
  have ha := (allValid_cons.1 (stripPrefix?_eq_some htowards haxes hstrip).1).1
  have hx : x.Valid m := (AxisRef.split_eq_some ha hsplit).1
  have hsingle : AllValid m [x] := by simpa [AllValid] using hx
  have hvalid := allValid_append.2 ⟨haxes, hsingle⟩
  obtain ⟨more, hmore⟩ := Option.isSome_iff_exists.1 (isSome_stripPrefix?_append haxes hsingle)
  have hsize := totalSize_stripPrefix? hvalid haxes hmore
  rw [totalSize_append, totalSize_cons, totalSize_nil, Nat.mul_one,
    Nat.mul_right_inj (Nat.ne_of_gt (totalSize_pos haxes))] at hsize
  refine ⟨axes ++ [x], hvalid, ?_, ⟨more, hmore, ?_, fun b hb => ?_⟩, ?_⟩
  · rw [stripPrefix?_append_of_cutMerged htowards haxes hsingle hstrip
      (cutMerged_singleton ha hsplit)]
    rfl
  · rintro rfl
    have hone := (AxisRef.one_lt_size_of_split ha hsplit).1
    rw [hsize, totalSize_nil] at hone
    omega
  · -- what the part adds covers what the part covers
    have hmv := (stripPrefix?_eq_some hvalid haxes hmore).1
    refine overlapsAny_eq_false hmv hused (fun name c hpos => ?_) hb
    have hcover := coverage_stripPrefix? hvalid haxes hmore name c
    rw [coverage_append, Nat.add_left_cancel_iff] at hcover
    exact coverage_eq_zero_of_not_overlaps hsingle hused (by simpa using hfree) (hcover ▸ hpos)
  · rw [totalSize_append, totalSize_cons, totalSize_nil, Nat.mul_one]
    exact hfits

namespace FactorStep

variable {s : FactorStep} {r : Rule} {p q : Projection} {d : Direction} {k : Nat} {ks : List Nat}
  {towards used l more : List AxisRef} {t : TensorRef} {us : List FactorUpdate}

section grow

variable {m : Mesh} {size shards : Nat} {minorMost : Bool} {a e x y : AxisRef}
  {extra rest : List AxisRef}

/-- With so many shards, a factor can take a free and fitting part of the list only if it is a part
of its first axis, which overlaps a used one. -/
def Stops (m : Mesh) (used : List AxisRef) (size shards : Nat) (left : List AxisRef) : Prop :=
  ∀ e extra rest, AllValid m (e :: extra) → cutMerged m left (e :: extra) = some rest →
    overlapsAny m e used = false → shards * e.size m ∣ size →
    ∃ a as n y, left = a :: as ∧ overlapsAny m a used = true ∧ a.split n m = some (e, y)

theorem stops_nil : Stops m used size shards [] := fun _ _ _ _ hcut => by cases hcut

theorem stops_of_not_dvd (h : ¬ shards ∣ size) : Stops m used size shards l :=
  fun _ _ _ _ _ _ hd => absurd (dvd_of_mul_right_dvd hd) h

/-- A part of a list begins with the first axis or with a piece of it. -/
theorem eq_or_dvd_of_cutMerged (ha : a.Valid m) (he : e.Valid m)
    (h : cutMerged m (a :: l) (e :: extra) = some rest) :
    e = a ∨ 1 < e.size m ∧ e.size m ∣ a.size m ∧ ∃ n y, a.split n m = some (e, y) := by
  rcases (cutMerged_cons_eq_some_iff ha he).1 h with ⟨rfl, -⟩ | ⟨-, n, y, hsplit, -⟩
  · exact .inl rfl
  · obtain ⟨-, -, -, hmerge, -⟩ := AxisRef.split_eq_some ha hsplit
    refine .inr ⟨(AxisRef.one_lt_size_of_split ha hsplit).1, ?_, n, y, hsplit⟩
    rw [← hmerge, AxisRef.merge_size]
    exact Nat.dvd_mul_right ..

theorem stops_of_overlapsAny (ha : a.Valid m) (hover : overlapsAny m a used = true) :
    Stops m used size shards (a :: l) := by
  intro e extra rest hv hcut hfree _
  rw [allValid_cons] at hv
  rcases eq_or_dvd_of_cutMerged ha hv.1 hcut with rfl | ⟨-, -, n, y, hsplit⟩
  · rw [hfree] at hover
    cases hover
  · exact ⟨a, l, n, y, rfl, hover, hsplit⟩

/-- Where no part of an axis is cut off that fits, none of its parts fits. -/
theorem stops_of_split_eq_none (ha : a.Valid m) (hshards : shards ∣ size)
    (hnot : ¬ shards * a.size m ∣ size)
    (hsplit : a.split (Nat.gcd (size / shards) (a.size m)) m = none) :
    Stops m used size shards (a :: l) := by
  intro e extra rest hv hcut _ hd
  rw [allValid_cons] at hv
  exfalso
  rcases eq_or_dvd_of_cutMerged ha hv.1 hcut with rfl | ⟨hone, hpiece, -⟩
  · exact hnot hd
  · have hgcd : e.size m ∣ Nat.gcd (size / shards) (a.size m) :=
      Nat.dvd_gcd (Nat.dvd_div_of_mul_dvd hd) hpiece
    have hga := Nat.gcd_dvd_right (size / shards) (a.size m)
    have hle := Nat.le_of_dvd (Nat.gcd_pos_of_pos_right _ ha.size_pos) hgcd
    -- the part that fits is not 1, so it is the whole axis
    have hwhole : Nat.gcd (size / shards) (a.size m) = a.size m := by
      refine Nat.le_antisymm (Nat.le_of_dvd ha.size_pos hga) (Nat.not_lt.1 fun hlt => ?_)
      have hsome := AxisRef.isSome_split_iff.2 ⟨by omega, hlt, hga⟩
      rw [hsplit] at hsome
      cases hsome
    have hdvd := Nat.gcd_dvd_left (size / shards) (a.size m)
    rw [hwhole] at hdvd
    exact hnot (Nat.mul_dvd_of_dvd_div hshards hdvd)

/-- Behind the largest part of an axis that fits, no further one does. -/
theorem stops_of_split_eq_some (ha : a.Valid m)
    (hsplit : a.split (Nat.gcd (size / shards) (a.size m)) m = some (x, y)) :
    Stops m used size (shards * x.size m) (y :: l) := by
  intro e extra rest hv hcut _ hd
  rw [allValid_cons] at hv
  exfalso
  obtain ⟨hx, hy, -, hmerge, hsize⟩ := AxisRef.split_eq_some ha hsplit
  obtain ⟨hone, hpiece⟩ : 1 < e.size m ∧ e.size m ∣ y.size m := by
    rcases eq_or_dvd_of_cutMerged hy hv.1 hcut with rfl | ⟨hone, hpiece, -⟩
    · exact ⟨(AxisRef.one_lt_size_of_split ha hsplit).2, Nat.dvd_refl _⟩
    · exact ⟨hone, hpiece⟩
  have hboth : x.size m * e.size m ∣ a.size m := by
    rw [← hmerge, AxisRef.merge_size]
    exact Nat.mul_dvd_mul_left _ hpiece
  rw [Nat.mul_assoc] at hd
  have hgcd := Nat.dvd_gcd (Nat.dvd_div_of_mul_dvd hd) hboth
  rw [← hsize] at hgcd
  have hle := Nat.le_of_dvd hx.size_pos hgcd
  have hlt := Nat.mul_lt_mul_of_pos_left hone hx.size_pos
  omega

/-- A factor takes axes off the list up to a place where nothing fits, or up to an axis that
overlaps a used one. -/
theorem exists_stops_of_grow (hs : s.conservative = false) (hl : AllValid s.mesh l)
    (h : s.grow size minorMost used shards l = .ok more) :
    AllValid s.mesh more ∧ ∃ left, cutMerged s.mesh l more = some left ∧
      Stops s.mesh used size (shards * totalSize s.mesh more) left := by
  induction l generalizing shards more with
  | nil =>
    cases h
    exact ⟨List.forall_mem_nil _, [], rfl, stops_nil⟩
  | cons a l ih =>
    rw [allValid_cons] at hl
    have hnone : cutMerged s.mesh (a :: l) [] = some (a :: l) := by rw [cutMerged]
    unfold grow at h
    simp only [hs, Bool.false_and, Bool.or_false, Bool.false_eq_true, if_false] at h
    split at h
    · rename_i hover
      cases h
      exact ⟨List.forall_mem_nil _, _, hnone, stops_of_overlapsAny hl.1 hover⟩
    split at h
    · cases h
    split at h
    · obtain ⟨tail, htail, h⟩ := bind_eq_ok_iff.1 h
      cases h
      obtain ⟨hv, left, hcut, hstops⟩ := ih hl.2 htail
      refine ⟨allValid_cons.2 ⟨hl.1, hv⟩, left, by rw [cutMerged, if_pos rfl, hcut], ?_⟩
      rwa [totalSize_cons, ← Nat.mul_assoc]
    rename_i hmod
    have hnot : ¬ shards * a.size s.mesh ∣ size := fun hd => hmod (Nat.mod_eq_zero_of_dvd hd)
    split at h
    · -- the minor-most factor takes an axis that does not fit it
      cases h
      refine ⟨by simpa [AllValid] using hl.1, l, by rw [cutMerged, if_pos rfl, cutMerged],
        stops_of_not_dvd ?_⟩
      rwa [totalSize_cons, totalSize_nil, Nat.mul_one]
    split at h
    · rename_i hdvd
      have hdvd := Nat.dvd_of_mod_eq_zero hdvd
      cases h
      cases hsplit : a.split (Nat.gcd (size / shards) (a.size s.mesh)) s.mesh with
      | none =>
        refine ⟨List.forall_mem_nil _, _, hnone, ?_⟩
        rw [Option.toList_none, List.map_nil, totalSize_nil, Nat.mul_one]
        exact stops_of_split_eq_none hl.1 hdvd hnot hsplit
      | some parts =>
        refine ⟨?_, _, cutMerged_singleton hl.1 hsplit, ?_⟩
        · simpa [AllValid] using (AxisRef.split_eq_some hl.1 hsplit).1
        · rw [Option.toList_some, List.map_singleton, totalSize_cons, totalSize_nil, Nat.mul_one]
          exact stops_of_split_eq_some hl.1 hsplit
    · rename_i hmod'
      cases h
      refine ⟨List.forall_mem_nil _, _, hnone,
        stops_of_not_dvd fun hd => hmod' (Nat.mod_eq_zero_of_dvd ?_)⟩
      rwa [totalSize_nil, Nat.mul_one] at hd

end grow

section extension

variable {m : Mesh} {sig : Signature} {size : Nat} {axes left longer : List AxisRef}
  {tensor : TensorFactors} {f : FactorSharding}

/-- Where a factor has stopped, it is surpassed only by a part of the next axis. -/
theorem leavesPart_of_surpasses (htowards : AllValid m towards) (haxes : AllValid m axes)
    (hstrip : stripPrefix? m towards axes = some left)
    (hstops : Stops m used size (totalSize m axes) left)
    (h : Surpasses m towards used size axes longer) : LeavesPart m towards used size axes := by
  obtain ⟨hlonger, htoward, ⟨more, hmore, hne, hfree⟩, hfits⟩ := h
  obtain ⟨rest, hrest⟩ := Option.isSome_iff_exists.1 htoward
  obtain ⟨_, hleft, hcut⟩ := exists_cutMerged_of_cutMerged htowards.mergeAdjacent
    hlonger.mergeAdjacent haxes.mergeAdjacent hrest hmore
  cases hstrip.symm.trans hleft
  have hvalid := (stripPrefix?_eq_some hlonger haxes hmore).1
  rw [totalSize_stripPrefix? hlonger haxes hmore] at hfits
  cases more with
  | nil => exact absurd rfl hne
  | cons e extra =>
    rw [totalSize_cons, ← Nat.mul_assoc] at hfits
    have hfits := dvd_of_mul_right_dvd hfits
    have he := hfree e List.mem_cons_self
    obtain ⟨a, as, n, y, rfl, hover, hsplit⟩ := hstops e extra rest hvalid hcut he hfits
    exact ⟨a, as, n, e, y, hstrip, hover, hsplit, he, hfits⟩

/-- A factor of a rule that verifies has a size where it may take axes. -/
theorem exists_sizeOf?_of_canExpand (hr : r.verify sig = .ok ())
    (hcan : s.canExpand r t tensor k f = true) : ∃ size, r.sizeOf? k = some size := by
  unfold canExpand at hcan
  split at hcan
  · cases hcan
  · rename_i mapping i place hplace
    obtain ⟨_, hmapping, hplace⟩ := Option.bind_eq_some_iff.1 hplace
    obtain ⟨_, hposition, heq⟩ := Option.map_eq_some_iff.1 hplace
    cases heq
    obtain ⟨fs, hfs, hk⟩ := Mapping.positionOf_eq_some hposition
    obtain ⟨shape, -, hmaps⟩ := Rule.exists_maps_of_verify hr hmapping
    have hlt : k < r.factors.length := hmaps.known k <|
      List.mem_flatten.2 ⟨fs, List.mem_of_getElem? hfs, List.mem_of_getElem? hk⟩
    exact ⟨r.factors[k].size, by rw [Rule.sizeOf?, List.getElem?_eq_getElem hlt]; rfl⟩

/-- A target takes all that is free and fits, unless the next axis overlaps a used one: only a part
of such an axis may be left that is free and fits, too. -/
theorem exists_surpasses_iff (hs : s.conservative = false) (hr : r.verify sig = .ok ())
    {shardings : Side → List (Option TensorSharding)}
    (hv : ∀ t, ∀ x ∈ Projection.shardingAt shardings t, x.Valid s.mesh)
    (hp : Projection.ofShardings s.mesh r (shardings .operand) (shardings .result) = .ok p)
    (hq : s.propagateFactors r d p ks = .ok (q, us)) (htowards : AllValid s.mesh towards)
    (htensor : q.tensor? t = some tensor) (hf : tensor.factor? k = some f)
    (hcan : s.canExpand r t tensor k f = true)
    (hstrip : (stripPrefix? s.mesh towards f.axes).isSome) :
    ∃ more size, s.extension r q k towards t = .ok more ∧ r.sizeOf? k = some size ∧
      ((∃ longer, Surpasses s.mesh towards (tensor.usedExcept k) size (f.axes ++ more) longer) ↔
        LeavesPart s.mesh towards (tensor.usedExcept k) size (f.axes ++ more)) := by
  obtain ⟨_, hstart, hproper⟩ := Projection.exists_ofShardings_of_valid hr hv
  cases hp.symm.trans hstart
  obtain ⟨_, _, hsteps, hadvances⟩ := exists_propagateFactors (r := r) (d := d) hproper ks
  cases hq.symm.trans hsteps
  have hclaims := hadvances.proper t tensor htensor
  obtain ⟨haxes, hused⟩ := allValid_append.1
    (hclaims.valid.perm (TensorFactors.perm_claims hclaims.keys hf).symm)
  obtain ⟨rest, hrest⟩ := Option.isSome_iff_exists.1 hstrip
  have hvrest := (stripPrefix?_eq_some htowards haxes hrest).1
  obtain ⟨size, hsize⟩ := exists_sizeOf?_of_canExpand hr hcan
  obtain ⟨more, hmore, -⟩ := exists_grow size f.minorMost hvrest hused (totalSize_pos haxes)
  obtain ⟨hvmore, left, hcut, hstops⟩ := exists_stops_of_grow hs hvrest hmore
  have hend := stripPrefix?_append_of_cutMerged htowards haxes hvmore hrest hcut
  have hlast := allValid_append.2 ⟨haxes, hvmore⟩
  rw [← totalSize_append] at hstops
  refine ⟨more, size, ?_, hsize, fun ⟨longer, h⟩ =>
    leavesPart_of_surpasses htowards hlast hend hstops h, fun h =>
    h.exists_surpasses htowards hlast hused⟩
  simp only [extension, htensor, hf, hcan, if_true, hrest, hsize, hmore]

/-- Behind the first factor, the second one takes the rest of the candidate, the last axis though it
does not fit. -/
theorem exists_surpasses_iff_grid :
    let s : FactorStep := ⟨.grid 4 2 (by decide) (by decide), .aggressive, Policy.largest, false⟩
    let r := Rule.ofSizes [2, 6] [⟨[[0, 1]]⟩] [⟨[[0], [1]]⟩]
    let shardings : Side → List (Option TensorSharding)
      | .operand => [some (.ofDims "mesh" [.ofAxes [.full "x", .full "y"] false])]
      | .result => [none]
    let towards : List AxisRef := [.sub "x" 2 2, .full "y"]
    let f : FactorSharding := ⟨[], false, true, []⟩
    s.conservative = false ∧ r.verify ⟨[[12]], [[2, 6]]⟩ = .ok () ∧
      (∀ t, ∀ x ∈ Projection.shardingAt shardings t, x.Valid s.mesh) ∧
      ∃ p q us tensor,
        Projection.ofShardings s.mesh r (shardings .operand) (shardings .result) = .ok p ∧
        s.propagateFactors r .forward p [0] = .ok (q, us) ∧ AllValid s.mesh towards ∧
        q.tensor? ⟨.result, 0⟩ = some tensor ∧ tensor.factor? 1 = some f ∧
        s.canExpand r ⟨.result, 0⟩ tensor 1 f = true ∧
        (stripPrefix? s.mesh towards f.axes).isSome ∧
        ∃ more size, s.extension r q 1 towards ⟨.result, 0⟩ = .ok more ∧ r.sizeOf? 1 = some size ∧
          ((∃ longer, Surpasses s.mesh towards (tensor.usedExcept 1) size (f.axes ++ more) longer) ↔
            LeavesPart s.mesh towards (tensor.usedExcept 1) size (f.axes ++ more)) := by
  intro s r shardings towards f
  have hr : r.verify ⟨[[12]], [[2, 6]]⟩ = .ok () := by decide
  have hv : ∀ t, ∀ x ∈ Projection.shardingAt shardings t, x.Valid s.mesh := by
    rintro ⟨side, i⟩ x hx
    cases side <;> rcases i with _ | i <;> cases hx
    have hvalid : TensorSharding.validate
        (.ofDims "mesh" [.ofAxes [.full "x", .full "y"] false]) s.mesh [12] = .ok () := by decide
    exact (TensorSharding.validate_eq_ok_iff.1 hvalid).2
  let operand : TensorFactors :=
    ⟨[(0, ⟨[.sub "x" 1 2], false, false, []⟩), (1, ⟨towards, false, true, []⟩)], [], []⟩
  let result (first : List AxisRef) : TensorFactors :=
    ⟨[(0, ⟨first, false, true, []⟩), (1, f)], [], []⟩
  let p : Projection := ⟨[operand], [result []]⟩
  let q : Projection := ⟨[operand], [result [.sub "x" 1 2]]⟩
  have hp : Projection.ofShardings s.mesh r (shardings .operand) (shardings .result) = .ok p :=
    eq_ok_of_toOption (by decide)
  have hq : s.propagateFactors r .forward p [0]
      = .ok (q, [⟨0, ⟨.result, 0⟩, ⟨.operand, 0⟩⟩]) := eq_ok_of_toOption (by decide)
  have htowards : AllValid s.mesh towards := by
    unfold AllValid AxisRef.Valid
    decide
  exact ⟨rfl, hr, hv, p, q, _, _, hp, hq, htowards, rfl, rfl, by decide, by decide,
    exists_surpasses_iff rfl hr hv hp hq htowards rfl rfl (by decide) (by decide)⟩

/-- The result has the minor half of an axis in its second factor, and the candidate for the first
factor is the whole axis. The major half is free and fits, but the result takes nothing. -/
theorem surpasses_window :
    let s : FactorStep := ⟨.grid 4 2 (by decide) (by decide), .aggressive, Policy.largest, false⟩
    let r := Rule.ofSizes [8, 8] [⟨[[0], [1]]⟩] [⟨[[0], [1]]⟩]
    let operand := TensorSharding.ofDims "mesh" [.ofAxes [.full "x"] false, .ofAxes [] false]
    let result := TensorSharding.ofDims "mesh" [.ofAxes [] false, .ofAxes [.sub "x" 2 2] false]
    let t : TensorRef := ⟨.result, 0⟩
    r.verify ⟨[[8, 8]], [[8, 8]]⟩ = .ok () ∧ operand.validate s.mesh [8, 8] = .ok () ∧
      result.validate s.mesh [8, 8] = .ok () ∧
      ∃ p tensor f, Projection.ofShardings s.mesh r [some operand] [some result] = .ok p ∧
        s.candidate (sources p .forward 0) = some ([.full "x"], ⟨.operand, 0⟩) ∧
        t ∈ targets p .forward 0 ∧ p.tensor? t = some tensor ∧ tensor.factor? 0 = some f ∧
        s.canExpand r t tensor 0 f = true ∧ (stripPrefix? s.mesh [.full "x"] f.axes).isSome ∧
        s.extension r p 0 [.full "x"] t = .ok [] ∧ r.sizeOf? 0 = some 8 ∧
        Surpasses s.mesh [.full "x"] (tensor.usedExcept 0) 8 f.axes [.sub "x" 1 2] := by
  intro s r operand result t
  let empty : FactorSharding := ⟨[], false, true, []⟩
  let tensor : TensorFactors :=
    ⟨[(0, empty), (1, ⟨[.sub "x" 2 2], false, true, []⟩)], [], []⟩
  let p : Projection :=
    ⟨[⟨[(0, ⟨[.full "x"], false, true, []⟩), (1, empty)], [], []⟩], [tensor]⟩
  have hp : Projection.ofShardings s.mesh r [some operand] [some result] = .ok p :=
    eq_ok_of_toOption (by decide)
  have hvalid : AllValid s.mesh [.sub "x" 1 2] := by
    unfold AllValid AxisRef.Valid
    decide
  exact ⟨by decide, by decide, by decide, p, tensor, empty, hp, by decide, by decide, rfl, rfl,
    by decide, by decide, eq_ok_of_toOption (by decide), rfl, hvalid, by decide,
    ⟨[.sub "x" 1 2], by decide, by decide, by decide⟩, by decide⟩

end extension

end FactorStep
end MeshSharding
