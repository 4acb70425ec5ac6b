import MeshSharding.Proofs.AxisList.Weight
import MeshSharding.Proofs.Propagation.Table

/-! Growth of shardings. A refinement adds minor axes to one open dimension and changes nothing
else; it adds at least one place of an axis, and there are only so many in a mesh. -/
namespace MeshSharding

open AxisList

namespace AxisList

variable {m : Mesh} {axes part rest : List AxisRef}

/-- Axes that are no equivalent of a part of them weigh more. -/
theorem weight_lt_of_stripPrefix? (hm : m.NoUnitAxes) (ha : AllValid m axes)
    (hp : AllValid m part) (h : stripPrefix? m axes part = some rest)
    (hne : equivalent m part axes = false) : weight m part < weight m axes := by
  obtain ⟨hrest, hmerge⟩ := stripPrefix?_eq_some ha hp h
  have hnil : rest ≠ [] := by
    rintro rfl
    rw [List.append_nil] at hmerge
    simp [equivalent, hmerge] at hne
  have hpos := weight_pos hm hrest hnil
  rw [← weight_mergeAdjacent ha, ← hmerge, weight_mergeAdjacent (allValid_append.2 ⟨hp, hrest⟩),
    weight_append]
  omega

end AxisList

namespace TensorSharding

variable {m : Mesh} {s t u : TensorSharding} {dim : Nat} {axes : List AxisRef}

/-- Only axes of open dimensions differ, and each dimension has its old axes as a major part. -/
structure Grows (m : Mesh) (s t : TensorSharding) : Prop where
  meshName : t.meshName = s.meshName
  replicated : t.replicated = s.replicated
  unreduced : t.unreduced = s.unreduced
  rank : t.rank = s.rank
  dims : ∀ (i : Nat) (d e : DimSharding), s.dims[i]? = some d → t.dims[i]? = some e →
    e = { d with axes := e.axes } ∧ (d.closed = true → e = d) ∧
      (stripPrefix? m e.axes d.axes).isSome

theorem Grows.refl (m : Mesh) (s : TensorSharding) : s.Grows m s := by
  refine ⟨rfl, rfl, rfl, rfl, fun i d e hd he => ?_⟩
  cases hd.symm.trans he
  exact ⟨rfl, fun _ => rfl, by rw [stripPrefix?_self]; rfl⟩

theorem Grows.trans (h : s.Grows m t) (h' : t.Grows m u) : s.Grows m u := by
  refine ⟨h'.meshName.trans h.meshName, h'.replicated.trans h.replicated,
    h'.unreduced.trans h.unreduced, h'.rank.trans h.rank, fun i d e hd he => ?_⟩
  obtain ⟨x, hx⟩ : ∃ x, t.dims[i]? = some x := by
    have hlt : i < t.rank := h.rank.symm ▸ (List.getElem?_eq_some_iff.1 hd).1
    exact ⟨_, List.getElem?_eq_getElem hlt⟩
  obtain ⟨hopen, hclosed, hstrip⟩ := h.dims i d x hd hx
  obtain ⟨hopen', hclosed', hstrip'⟩ := h'.dims i x e hx he
  refine ⟨?_, fun hd => ?_, ?_⟩
  · rw [hopen', hopen]
  · have hxd := hclosed hd
    rw [hclosed' (hxd ▸ hd), hxd]
  · exact isSome_stripPrefix?_trans hstrip hstrip'

theorem grows_refineDim (h : s.refineDim m dim axes = some t) : s.Grows m t := by
  obtain ⟨d, added, hd, hopen, -, hstrip, -, rfl⟩ := refineDim_eq_some h
  refine ⟨rfl, rfl, rfl, modifyDim_rank .., fun i x e hx he => ?_⟩
  by_cases hi : dim = i
  · subst hi
    cases hd.symm.trans hx
    rw [dims_modifyDim hd] at he
    cases he
    refine ⟨rfl, fun hclosed => absurd hclosed (by simp [hopen]), ?_⟩
    rw [stripPrefix?, mergeAdjacent_mergeAdjacent]
    exact Option.isSome_of_mem hstrip
  · rw [dims_modifyDim_of_ne (Ne.symm hi)] at he
    cases hx.symm.trans he
    exact ⟨rfl, fun _ => rfl, by rw [stripPrefix?_self]; rfl⟩

/-- A refinement covers further places. -/
theorem weight_lt_of_refineDim (hm : m.NoUnitAxes) (hs : s.Valid m) (hv : AllValid m axes)
    (h : s.refineDim m dim axes = some t) : weight m s.usedAxes < weight m t.usedAxes := by
  obtain ⟨d, added, hd, -, hne, hstrip, -, rfl⟩ := refineDim_eq_some h
  rw [weight_perm (perm_usedAxes hd), weight_perm (perm_usedAxes (dims_modifyDim hd _)),
    axesOutside_modifyDim, weight_append, weight_append, weight_mergeAdjacent hv]
  exact Nat.add_lt_add_right
    (weight_lt_of_stripPrefix? hm hv (hs.allValid_axes hd) hstrip hne) _

end TensorSharding

namespace Program

/-- The largest number of places of a mesh. -/
def capacity (p : Program) : Nat := (p.meshes.map fun entry => entry.2.capacity).foldr max 0

/-- No mesh has an axis of size 1. -/
def NoUnitAxes (p : Program) : Prop := ∀ entry ∈ p.meshes, entry.2.NoUnitAxes

variable {p : Program} {name : String} {m : Mesh}

theorem mem_meshes (h : p.mesh name = .ok m) : ∃ entry ∈ p.meshes, entry.2 = m := by
  unfold mesh at h
  split at h
  · rename_i hfind
    cases h
    obtain ⟨entry, hentry, heq⟩ := Option.map_eq_some_iff.1 hfind
    exact ⟨entry, List.mem_of_find?_eq_some hentry, heq⟩
  · cases h

theorem NoUnitAxes.mesh (hp : p.NoUnitAxes) (h : p.mesh name = .ok m) : m.NoUnitAxes := by
  obtain ⟨entry, hmem, rfl⟩ := mem_meshes h
  exact hp entry hmem

theorem capacity_le (h : p.mesh name = .ok m) : m.capacity ≤ p.capacity := by
  obtain ⟨entry, hmem, rfl⟩ := mem_meshes h
  have hfold : ∀ l : List Nat, ∀ x ∈ l, x ≤ l.foldr max 0 := fun l => by
    induction l with
    | nil => exact nofun
    | cons y rest ih =>
      intro x hx
      rcases List.mem_cons.1 hx with rfl | hx
      · exact Nat.le_max_left ..
      · exact Nat.le_trans (ih x hx) (Nat.le_max_right ..)
  exact hfold _ _ (List.mem_map_of_mem hmem)

end Program

namespace ShardingTable

variable {p : Program} {t t' u : ShardingTable} {value dim : Nat} {axes : List AxisRef}
  {name : String} {m : Mesh}

/-- Every sharding has grown, where a value without one counts as fully open. -/
structure Grows (p : Program) (t t' : ShardingTable) : Prop where
  ranks : t'.map (·.rank) = t.map (·.rank)
  kept : ∀ value, (t.get value).isSome → (t'.get value).isSome
  grows : ∀ value s, t'.get value = some s → ∃ m, p.mesh s.meshName = .ok m ∧
    ((t.get value).getD (.fullyOpen s.meshName s.rank)).Grows m s

theorem Grows.refl (ht : t.Sound p) : t.Grows p t := by
  refine ⟨rfl, fun _ h => h, fun value s hs => ?_⟩
  obtain ⟨m, hm, -⟩ := ht.valid value s hs
  exact ⟨m, hm, by rw [hs]; exact .refl m s⟩

theorem Grows.trans (h : t.Grows p t') (h' : t'.Grows p u) : t.Grows p u := by
  refine ⟨h'.ranks.trans h.ranks, fun value hv => h'.kept value (h.kept value hv),
    fun value s hs => ?_⟩
  obtain ⟨m, hm, hgrows⟩ := h'.grows value s hs
  refine ⟨m, hm, ?_⟩
  cases hget : t'.get value with
  | none =>
    have hnone : t.get value = none := by
      rw [← Option.not_isSome_iff_eq_none]
      intro hsome
      simpa [hget] using h.kept value hsome
    rw [hget] at hgrows
    rw [hnone]
    exact hgrows
  | some x =>
    rw [hget] at hgrows
    obtain ⟨m', hm', hfirst⟩ := h.grows value x hget
    have hname : s.meshName = x.meshName := hgrows.meshName
    have hrank : s.rank = x.rank := hgrows.rank
    rw [← hname, hm] at hm'
    cases hm'
    rw [← hname, ← hrank] at hfirst
    exact hfirst.trans hgrows

/-- A refinement that is accepted makes the sharding of its value grow. -/
theorem grows_refine (ht : t.Sound p) (hm : p.mesh name = .ok m)
    (h : t.refine value dim axes name m = some t') : t.Grows p t' := by
  obtain ⟨entry, s, hentry, hname, hs, rfl⟩ := refine_eq_some_iff.1 h
  have hlt := (List.getElem?_eq_some_iff.1 hentry).1
  have hgrows := TensorSharding.grows_refineDim hs
  have hsname : s.meshName = name := hgrows.meshName.trans hname
  have hget : t.get value = entry.sharding := by simp [get, hentry]
  have hsrank : s.rank = entry.rank := by
    rw [hgrows.rank, (ht.valid_getD hentry hname hm).1, ht.rank_eq hentry]
  refine ⟨ranks_put .., fun other hsome => ?_, fun other x hx => ?_⟩
  · rw [get_put]
    split
    · rfl
    · exact hsome
  · rw [get_put] at hx
    split at hx
    · rename_i hother
      cases hx
      refine ⟨m, hsname ▸ hm, ?_⟩
      rw [hother.1, hget, hsname, hsrank]
      exact hgrows
    · obtain ⟨m', hm', -⟩ := ht.valid other x hx
      exact ⟨m', hm', by rw [hx]; exact .refl m' x⟩

section weight

/-- The places that the sharding of a value covers. -/
def entryWeight (p : Program) (entry : TableEntry) : Nat :=
  match entry.sharding with
  | none => 0
  | some s =>
    match p.mesh s.meshName with
    | .ok m => AxisList.weight m s.usedAxes
    | .error _ => 0

def weight (p : Program) (t : ShardingTable) : Nat := (t.map (entryWeight p)).sum

theorem sum_map_modify {α : Type} (w : α → Nat) (f : α → α) {l : List α} {i : Nat} {x : α}
    (h : l[i]? = some x) : ((l.modify i f).map w).sum + w x = (l.map w).sum + w (f x) := by
  induction l generalizing i with
  | nil => cases h
  | cons y rest ih =>
    cases i with
    | zero =>
      cases h
      simp only [List.modify_zero_cons, List.map_cons, List.sum_cons]
      omega
    | succ i =>
      have := ih (i := i) (by simpa using h)
      simp only [List.modify_succ_cons, List.map_cons, List.sum_cons]
      omega

theorem weight_le (ht : t.Sound p) : t.weight p ≤ p.values.length * p.capacity := by
  rw [← ht.length_eq, weight]
  refine Nat.le_trans (List.sum_le_card_nsmul _ p.capacity fun x hx => ?_) (by simp)
  obtain ⟨entry, hentry, rfl⟩ := List.mem_map.1 hx
  obtain ⟨value, hvalue⟩ := List.getElem?_of_mem hentry
  unfold entryWeight
  cases hs : entry.sharding with
  | none => exact Nat.zero_le _
  | some s =>
    obtain ⟨m, hm, hvalid⟩ := ht.valid value s (by simp [get, hvalue, hs])
    obtain ⟨-, hv, ha⟩ := TensorSharding.validate_eq_ok_iff.1 hvalid
    simp only [hm]
    exact Nat.le_trans (weight_le_capacity hv ha) (Program.capacity_le hm)

/-- A refinement that is accepted covers further places. -/
theorem weight_lt_of_refine (hp : p.NoUnitAxes) (ht : t.Sound p) (hm : p.mesh name = .ok m)
    (hv : AllValid m axes) (h : t.refine value dim axes name m = some t') :
    t.weight p < t'.weight p := by
  obtain ⟨entry, s, hentry, hname, hs, rfl⟩ := refine_eq_some_iff.1 h
  have hsname : s.meshName = name := (TensorSharding.grows_refineDim hs).meshName.trans hname
  have hlt := TensorSharding.weight_lt_of_refineDim (hp.mesh hm)
    (ht.valid_getD hentry hname hm).2 hv hs
  have hold : entryWeight p entry
      = AxisList.weight m (entry.sharding.getD (.fullyOpen name entry.rank)).usedAxes := by
    unfold entryWeight
    cases hx : entry.sharding with
    | none =>
      rw [Option.getD_none, TensorSharding.usedAxes_fullyOpen]
      rfl
    | some x =>
      rw [hx] at hname
      simp only [show x.meshName = name from hname, hm, Option.getD_some]
  have hnew : entryWeight p { entry with sharding := some s }
      = AxisList.weight m s.usedAxes := by
    simp only [entryWeight, hsname, hm]
  have hsum := sum_map_modify (entryWeight p) (fun e => { e with sharding := some s }) hentry
  simp only [hold, hnew] at hsum
  unfold weight put
  omega

end weight

end ShardingTable
end MeshSharding
