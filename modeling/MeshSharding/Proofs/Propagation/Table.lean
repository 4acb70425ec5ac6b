import MeshSharding.Propagation.Table
import MeshSharding.Program
import MeshSharding.Proofs.AxisList.Prefix

/-! Refinement of the shardings of a table. A dimension takes only axes that are valid, apart
and free of the rest of its sharding, so the shardings of a table stay valid. -/
namespace MeshSharding

open AxisList

namespace TensorSharding

variable {m : Mesh} {s s' : TensorSharding} {dim : Nat} {d : DimSharding} {axes : List AxisRef}

@[simp] theorem usedAxes_fullyOpen (name : String) (n : Nat) :
    (fullyOpen name n).usedAxes = [] := by
  simp [usedAxes, dimAxes, fullyOpen, ofDims, DimSharding.ofAxes]

theorem valid_fullyOpen (m : Mesh) (name : String) (n : Nat) : (fullyOpen name n).Valid m := by
  rw [TensorSharding.Valid, usedAxes_fullyOpen]
  exact ⟨by simp [AllValid], fun _ _ => Nat.zero_le _⟩

/-- What a refinement that is accepted has found, and what it changes. -/
theorem refineDim_eq_some (h : s.refineDim m dim axes = some s') :
    ∃ d added, s.dims[dim]? = some d ∧ d.closed = false ∧
      equivalent m d.axes axes = false ∧ stripPrefix? m axes d.axes = some added ∧
      (∀ a ∈ added, overlapsAny m a (s.axesOutside dim) = false) ∧
      s' = s.modifyDim dim fun d => { d with axes := mergeAdjacent m axes } := by
  obtain ⟨d, hd, h⟩ := Option.bind_eq_some_iff.1 h
  split at h
  · cases h
  · rename_i hguard
    simp only [Bool.or_eq_true, Bool.not_eq_true', not_or, Bool.not_eq_true] at hguard
    obtain ⟨added, hadded, h⟩ := Option.bind_eq_some_iff.1 h
    split at h
    · cases h
    · rename_i hfree
      cases h
      exact ⟨d, added, hd, hguard.1.1, hguard.2, hadded, by simpa using hfree, rfl⟩

/-- A refinement to axes that are apart among themselves keeps the sharding valid: what is
added is free of the other dimensions. -/
theorem Valid.refineDim (h : s.Valid m) (hv : AllValid m axes) (ha : Apart m axes)
    (hrefine : s.refineDim m dim axes = some s') : s'.Valid m := by
  obtain ⟨d, added, hd, -, -, hstrip, hfree, rfl⟩ := refineDim_eq_some hrefine
  obtain ⟨hvalid, hapart⟩ := (valid_iff hd).1 h
  rw [allValid_append] at hvalid
  have hadded := (stripPrefix?_eq_some hv hvalid.1 hstrip).1
  refine h.modifyDim hd hv.mergeAdjacent fun name c => ?_
  have hold := hapart name c
  have hnew := ha name c
  rw [coverage_append] at hold ⊢
  rw [coverage_mergeAdjacent hv]
  by_cases hc : 0 < coverage m name c added
  · have := coverage_eq_zero_of_not_overlaps hadded hvalid.2 hfree hc
    omega
  · rw [coverage_stripPrefix? hv hvalid.1 hstrip]
    omega

end TensorSharding

namespace ShardingTable

variable {p : Program} {t t' : ShardingTable} {value dim : Nat} {axes : List AxisRef}
  {name : String} {m : Mesh}

theorem get_put (t : ShardingTable) (value other : Nat) (s : Option TensorSharding) :
    (t.put value s).get other = if other = value ∧ other < t.length then s else t.get other := by
  simp only [get, put, List.getElem?_modify]
  by_cases hlt : other < t.length
  · by_cases heq : value = other <;> simp [heq, hlt, eq_comm]
  · simp [hlt]

@[simp] theorem length_put (t : ShardingTable) (value : Nat) (s : Option TensorSharding) :
    (t.put value s).length = t.length := List.length_modify ..

theorem ranks_put (t : ShardingTable) (value : Nat) (s : Option TensorSharding) :
    (t.put value s).map (·.rank) = t.map (·.rank) := by
  refine List.ext_getElem (by simp) fun i _ _ => ?_
  simp only [put, List.getElem_map, List.getElem_modify]
  split <;> rfl

/-- A value without a sharding is refined as a fully open one. -/
theorem refine_eq_some_iff : t.refine value dim axes name m = some t' ↔
    ∃ entry s, t[value]? = some entry ∧
      (entry.sharding.getD (.fullyOpen name entry.rank)).meshName = name ∧
      (entry.sharding.getD (.fullyOpen name entry.rank)).refineDim m dim axes = some s ∧
      t' = t.put value (some s) := by
  simp only [refine, Option.bind_eq_bind, Option.bind_eq_some_iff]
  constructor
  · rintro ⟨entry, hentry, h⟩
    split at h
    · cases h
    · rename_i hname
      obtain ⟨s, hs, h⟩ := Option.bind_eq_some_iff.1 h
      exact ⟨entry, s, hentry, Classical.not_not.1 hname, hs, (Option.some.inj h).symm⟩
  · rintro ⟨entry, s, hentry, hname, hs, rfl⟩
    refine ⟨entry, hentry, ?_⟩
    rw [if_neg (Classical.not_not.2 hname), hs]
    rfl

/-- A refinement changes only its own value. -/
theorem getElem?_of_refine (h : t.refine value dim axes name m = some t') {other : Nat}
    (hother : other ≠ value) : t'[other]? = t[other]? := by
  obtain ⟨_, s, -, -, -, rfl⟩ := refine_eq_some_iff.1 h
  simp [put, hother.symm]

/-- Whether a refinement is refused depends only on the entry of its value. -/
theorem refine_eq_none_congr (h : t'[value]? = t[value]?)
    (hnone : t.refine value dim axes name m = none) : t'.refine value dim axes name m = none := by
  cases hrefine : t'.refine value dim axes name m with
  | none => rfl
  | some r =>
    obtain ⟨entry, s, hentry, hname, hs, -⟩ := refine_eq_some_iff.1 hrefine
    rw [refine_eq_some_iff.2 ⟨entry, s, h ▸ hentry, hname, hs, rfl⟩] at hnone
    cases hnone

/-- The table has the values of the program, and their shardings are valid. -/
structure Sound (p : Program) (t : ShardingTable) : Prop where
  ranks : t.map (·.rank) = p.values.map Value.rank
  valid : ∀ value s, t.get value = some s →
    ∃ m, p.mesh s.meshName = .ok m ∧ s.validate m (p.shapeOf value) = .ok ()

theorem Sound.rank_eq (h : t.Sound p) {entry : TableEntry} (hentry : t[value]? = some entry) :
    entry.rank = (p.shapeOf value).length := by
  have hranks := congrArg (·[value]?) h.ranks
  simp only [List.getElem?_map, hentry, Option.map_some] at hranks
  obtain ⟨v, hv, hrank⟩ := Option.map_eq_some_iff.1 hranks.symm
  simp [Program.shapeOf, hv, ← hrank, Value.rank]

theorem Sound.length_eq (h : t.Sound p) : t.length = p.values.length := by
  simpa using congrArg List.length h.ranks

theorem Sound.put (h : t.Sound p) {s : TensorSharding}
    (hs : value < t.length → ∃ m, p.mesh s.meshName = .ok m ∧
      s.validate m (p.shapeOf value) = .ok ()) : (t.put value (some s)).Sound p := by
  refine ⟨(ranks_put ..).trans h.ranks, fun other s' hs' => ?_⟩
  rw [get_put] at hs'
  split at hs'
  · rename_i hother
    obtain ⟨rfl, hlt⟩ := hother
    cases hs'
    exact hs hlt
  · exact h.valid other s' hs'

theorem Sound.valid_of_get (h : t.Sound p) (hm : p.mesh name = .ok m) {s : TensorSharding}
    (hs : t.get value = some s) (hname : s.meshName = name) :
    s.rank = (p.shapeOf value).length ∧ s.Valid m := by
  obtain ⟨m', hm', hvalid⟩ := h.valid value s hs
  rw [hname, hm] at hm'
  cases hm'
  exact TensorSharding.validate_eq_ok_iff.1 hvalid

/-- A value without a sharding counts as a valid one, fully open. -/
theorem Sound.valid_getD (h : t.Sound p) {entry : TableEntry} (hentry : t[value]? = some entry)
    (hname : (entry.sharding.getD (.fullyOpen name entry.rank)).meshName = name)
    (hm : p.mesh name = .ok m) :
    (entry.sharding.getD (.fullyOpen name entry.rank)).rank = (p.shapeOf value).length ∧
      (entry.sharding.getD (.fullyOpen name entry.rank)).Valid m := by
  cases hs : entry.sharding with
  | none => exact ⟨by simp [h.rank_eq hentry], TensorSharding.valid_fullyOpen ..⟩
  | some s =>
    rw [hs] at hname
    exact h.valid_of_get hm (by simp [get, hentry, hs]) hname

/-- Refinements keep the shardings of a table valid. -/
theorem Sound.refine (h : t.Sound p) (hm : p.mesh name = .ok m) (hv : AllValid m axes)
    (ha : Apart m axes) (hrefine : t.refine value dim axes name m = some t') : t'.Sound p := by
  obtain ⟨entry, s, hentry, hname, hs, rfl⟩ := refine_eq_some_iff.1 hrefine
  obtain ⟨hrank, hvalid⟩ := h.valid_getD hentry hname hm
  have hkept : s.meshName = name ∧ s.rank = (p.shapeOf value).length := by
    obtain ⟨d, added, -, -, -, -, -, rfl⟩ := TensorSharding.refineDim_eq_some hs
    exact ⟨hname, by rw [TensorSharding.modifyDim_rank, hrank]⟩
  exact h.put fun _ => ⟨m, hkept.1 ▸ hm,
    TensorSharding.validate_eq_ok_iff.2 ⟨hkept.2, hvalid.refineDim hv ha hs⟩⟩

end ShardingTable
end MeshSharding
