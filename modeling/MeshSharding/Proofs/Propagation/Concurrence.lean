import MeshSharding.Proofs.Propagation.Saturation

/-! Concurrence. In a saturated projection the tensors that could take the next axis of a candidate
already have all of it. So tensors whose axes for a factor are parts of one candidate, and that are
free to take the rest, have the same axes. -/
namespace MeshSharding

open AxisList

namespace FactorStep

variable {s : FactorStep} {r : Rule} {p : Projection} {k size : Nat}
  {towards used rest : List AxisRef} {source t : TensorRef} {f : FactorSharding} {a : AxisRef}

/-- A factor of some size and with the given axes has room for a further one that the tensor does
not use otherwise: it can be cut by it, or by a major part of it. A conservative step takes
references to whole axes only, and only as a whole. -/
def hasRoom (s : FactorStep) (size : Nat) (f : FactorSharding) (used : List AxisRef)
    (a : AxisRef) : Bool :=
  let shards := totalSize s.mesh f.axes
  !overlapsAny s.mesh a used && !(s.conservative && a.isSub) &&
    (size % (shards * a.size s.mesh) = 0 || !s.conservative &&
      (f.minorMost && shards < size ||
        size % shards = 0 && 1 < Nat.gcd (size / shards) (a.size s.mesh)))

/-- The tensor has all the axes of the candidate for the factor, or a major part of them and may
take the next one. -/
def follows (s : FactorStep) (r : Rule) (p : Projection) (k : Nat) (towards : List AxisRef)
    (t : TensorRef) : Bool :=
  (p.tensor? t).any fun tensor => (tensor.factor? k).any fun f =>
    (stripPrefix? s.mesh towards f.axes).any fun rest => rest.head?.all fun a =>
      s.canExpand r t tensor k f && s.hasRoom (r.capacityOf k) f (tensor.usedExcept k) a

/-- None of the tensors has axes for the factor, or all of them follow the candidate. -/
def concur (s : FactorStep) (r : Rule) (p : Projection) (k : Nat) (ts : List TensorRef) : Bool :=
  match s.candidate (sources p .both k) with
  | none => ts.all fun t => (axesOf p t k).isEmpty
  | some (towards, _) => ts.all (s.follows r p k towards)

/-- Where there is room a factor grows. -/
theorem grow_ne_nil (h : s.hasRoom size f used a = true) :
    s.grow size f.minorMost used (totalSize s.mesh f.axes) (a :: rest) ≠ .ok [] := by
  generalize hshards : totalSize s.mesh f.axes = shards
  simp only [hasRoom, hshards, Bool.and_eq_true, Bool.not_eq_true', Bool.or_eq_true,
    decide_eq_true_eq] at h
  obtain ⟨⟨hfree, hwhole⟩, hfits⟩ := h
  unfold grow
  rw [if_neg (by simp [hfree, hwhole])]
  split
  · intro h
    cases h
  · split
    · cases s.grow size f.minorMost used (shards * a.size s.mesh) rest <;>
      · intro h
        cases h
    · rename_i hzero hdvd
      obtain ⟨hcut, hpart⟩ := hfits.resolve_left hdvd
      rw [if_neg (by simp [hcut])]
      split
      · intro h
        cases h
      · rename_i hminor
        obtain ⟨hshards, hgcd⟩ := hpart.resolve_left fun h => hminor h
        rw [if_pos hshards]
        obtain ⟨q, rfl⟩ := Nat.dvd_of_mod_eq_zero hshards
        have hpos : 0 < shards := Nat.pos_of_ne_zero fun h => hzero (by rw [h, Nat.zero_mul])
        rw [Nat.mul_div_cancel_left q hpos] at hgcd ⊢
        -- the whole axis does not fit
        have hlt : Nat.gcd q (a.size s.mesh) < a.size s.mesh := by
          have hsize : 0 < a.size s.mesh :=
            Nat.pos_of_ne_zero fun h => hzero (by rw [h, Nat.mul_zero])
          refine Nat.lt_of_le_of_ne (Nat.gcd_le_right _ hsize) fun heq => hdvd ?_
          have hq : a.size s.mesh ∣ q := heq ▸ Nat.gcd_dvd_left ..
          exact Nat.mod_eq_zero_of_dvd (Nat.mul_dvd_mul_left shards hq)
        obtain ⟨parts, hparts⟩ := Option.isSome_iff_exists.1
          (AxisRef.isSome_split_iff.2 ⟨hgcd, hlt, Nat.gcd_dvd_right ..⟩)
        rw [hparts]
        intro h
        cases h

/-- In a saturated projection a tensor that follows the candidate has its axes. -/
theorem Saturated.axes_eq (h : Saturated s r .both p k) (hp : p.Proper s.mesh)
    (hk : r.factors[k]?.any flows = true)
    (hc : s.candidate (sources p .both k) = some (towards, source))
    (ht : s.follows r p k towards t = true) :
    mergeAdjacent s.mesh (axesOf p t k) = mergeAdjacent s.mesh towards := by
  obtain ⟨tensor, htensor, ht⟩ := (Option.any_eq_true _ _).1 ht
  obtain ⟨f, hf, ht⟩ := (Option.any_eq_true _ _).1 ht
  obtain ⟨rest, hstrip, ht⟩ := (Option.any_eq_true _ _).1 ht
  have hfactor : p.factor? t k = some f := by rw [Projection.factor?, htensor]; exact hf
  have htarget : t ∈ targets p .both k := by
    refine List.mem_filter.2 ⟨?_, decide_eq_true ⟨?_, by rw [hfactor]; rfl⟩⟩
    · exact Projection.mem_refs.2 (List.getElem?_eq_some_iff.1 htensor).1
    · cases hside : t.side <;>
        simp [isTarget, hside, Direction.isForward, Direction.isBackward]
  have hnil := h hk towards source hc t htarget
  cases rest with
  | cons a rest =>
    simp only [List.head?_cons, Option.all_some, Bool.and_eq_true] at ht
    simp only [extension, htensor, hf, ht.1, if_true, hstrip] at hnil
    obtain ⟨x, hx⟩ : ∃ x, r.factors[k]? = some x := by
      cases hx : r.factors[k]? with
      | none => rw [hx] at hk; cases hk
      | some x => exact ⟨x, rfl⟩
    have hsize : r.sizeOf? k = some (r.capacityOf k) := by
      simp [Rule.capacityOf, Rule.sizeOf?, hx]
    rw [hsize] at hnil
    exact absurd hnil (grow_ne_nil ht.2)
  | nil =>
    obtain ⟨-, hv, -⟩ := candidate_spec hp hc
    have hproper := hp t tensor htensor
    have haxes := (allValid_append.1
      (hproper.valid.perm (TensorFactors.perm_claims hproper.keys hf).symm)).1
    have hjoin := (stripPrefix?_eq_some hv haxes hstrip).2
    rw [List.append_nil] at hjoin
    simpa [axesOf, hfactor] using hjoin

/-- Tensors that concur have the same axes for the factor. -/
theorem Saturated.exists_axes {ts : List TensorRef} (h : Saturated s r .both p k)
    (hp : p.Proper s.mesh) (hk : r.factors[k]?.any flows = true)
    (hc : s.concur r p k ts = true) :
    ∃ axes, ∀ t ∈ ts, mergeAdjacent s.mesh (axesOf p t k) = axes := by
  unfold concur at hc
  split at hc
  · refine ⟨[], fun t ht => ?_⟩
    rw [List.isEmpty_iff.1 (List.all_eq_true.1 hc t ht), mergeAdjacent_nil]
  · rename_i towards source hcandidate
    exact ⟨_, fun t ht => h.axes_eq hp hk hcandidate (List.all_eq_true.1 hc t ht)⟩

end FactorStep
end MeshSharding
