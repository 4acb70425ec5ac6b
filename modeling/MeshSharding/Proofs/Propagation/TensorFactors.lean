import Mathlib.Data.List.Nodup
import MeshSharding.Proofs.AxisList.Prefix
import MeshSharding.Proofs.Propagation.Projection

/-! Disjoint factor shardings. The factors of a valid sharding claim no place of an axis
twice, and neither do the dimensions that are put together from them again. -/
namespace MeshSharding
namespace Sorted

variable {α β : Type} [DecidableEq α] {k : α} {v : β} {entries : List (α × β)}

theorem perm_put [LT α] [DecidableLT α] (h : k ∉ entries.map (·.1)) :
    (put k v entries).Perm ((k, v) :: entries) := by
  induction entries with
  | nil => exact .refl _
  | cons entry rest ih =>
    rw [List.map_cons, List.mem_cons, not_or] at h
    unfold put
    split
    · exact .refl _
    · rw [if_neg h.1]
      exact ((ih h.2).cons entry).trans (.swap ..)

/-- A map built of entries with distinct keys holds these entries. -/
theorem perm_ofEntries [LT α] [DecidableLT α] (hn : (entries.map (·.1)).Nodup) :
    (ofEntries entries).Perm entries := by
  have hfold : ∀ map : List (α × β), (∀ x ∈ entries, x.1 ∉ map.map (·.1)) →
      (entries.foldl (fun map entry => put entry.1 entry.2 map) map).Perm (map ++ entries) := by
    induction entries with
    | nil => simp
    | cons entry rest ih =>
      intro map hmap
      rw [List.map_cons, List.nodup_cons] at hn
      rw [List.forall_mem_cons] at hmap
      have hput := perm_put (v := entry.2) hmap.1
      refine (ih hn.2 _ fun x hx hmem => ?_).trans
        ((hput.append_right rest).trans List.perm_middle.symm)
      rcases List.mem_cons.1 ((hput.map (·.1)).mem_iff.1 hmem) with heq | hmem
      · refine hn.1 ?_
        rw [← show x.1 = entry.1 from heq]
        exact List.mem_map_of_mem (f := (·.1)) hx
      · exact hmap.2 x hx hmem
  simpa [ofEntries] using hfold [] (by simp)

theorem map_fst_update (f : β → β) (k : α) (entries : List (α × β)) :
    (update k f entries).map (·.1) = entries.map (·.1) := by
  rw [update, List.map_map]
  refine List.map_congr_left fun entry _ => ?_
  simp only [Function.comp_apply]
  split <;> rfl

end Sorted

open AxisList

namespace TensorFactors

variable {m : Mesh} {t : TensorFactors} {k : Nat} {f : FactorSharding} {axes : List AxisRef}

/-- Every reference the tensor claims. -/
def claims (t : TensorFactors) : List AxisRef :=
  (t.factors.flatMap fun entry => (Portion.ofFactor entry.2).all) ++ t.replicated ++ t.unreduced

/-- Each factor is there once, and no place of an axis is claimed twice. -/
structure Proper (m : Mesh) (t : TensorFactors) : Prop where
  keys : (t.factors.map (·.1)).Nodup
  valid : AllValid m t.claims
  apart : Apart m t.claims

theorem flatMap_eq_of_not_mem {entries : List (Nat × FactorSharding)}
    (h : k ∉ entries.map (·.1)) :
    (entries.flatMap fun entry => (if entry.1 = k then [] else entry.2.axes) ++ entry.2.overflow)
      = entries.flatMap fun entry => (Portion.ofFactor entry.2).all := by
  refine List.flatMap_congr fun entry hentry => ?_
  have hne : entry.1 ≠ k := fun heq => h (heq ▸ List.mem_map_of_mem (f := (·.1)) hentry)
  rw [if_neg hne]
  rfl

theorem perm_flatMap {entries : List (Nat × FactorSharding)} (hn : (entries.map (·.1)).Nodup)
    (h : Sorted.find? k entries = some f) :
    (entries.flatMap fun entry => (Portion.ofFactor entry.2).all).Perm (f.axes ++
      entries.flatMap fun entry =>
        (if entry.1 = k then [] else entry.2.axes) ++ entry.2.overflow) := by
  induction entries with
  | nil => cases h
  | cons entry rest ih =>
    rw [List.map_cons, List.nodup_cons] at hn
    rw [Sorted.find?_cons] at h
    rw [List.flatMap_cons, List.flatMap_cons]
    split at h
    · rename_i hk
      cases h
      rw [if_pos hk, flatMap_eq_of_not_mem (hk ▸ hn.1), List.nil_append, ← List.append_assoc]
      exact .refl _
    · rename_i hk
      rw [if_neg hk]
      refine ((ih hn.2 h).append_left _).trans ?_
      rw [← List.append_assoc, ← List.append_assoc]
      exact List.perm_append_comm.append_right _

/-- What a tensor claims is what it claims for one factor, and the rest. -/
theorem perm_claims (hn : (t.factors.map (·.1)).Nodup) (h : t.factor? k = some f) :
    t.claims.Perm (f.axes ++ t.usedExcept k) := by
  unfold claims usedExcept
  rw [← List.append_assoc, ← List.append_assoc]
  exact ((perm_flatMap hn h).append_right _).append_right _

theorem factor?_setAxes (t : TensorFactors) (k k' : Nat) (axes : List AxisRef) :
    (t.setAxes k axes).factor? k' = if k' = k
      then (t.factor? k').map fun f => { f with axes := axes } else t.factor? k' := by
  simp only [factor?, setAxes, Sorted.find?_update]

theorem usedExcept_setAxes (t : TensorFactors) (k : Nat) (axes : List AxisRef) :
    (t.setAxes k axes).usedExcept k = t.usedExcept k := by
  unfold usedExcept setAxes Sorted.update
  rw [List.flatMap_map]
  congr 2
  refine List.flatMap_congr fun entry _ => ?_
  dsimp only
  split <;> simp [*]

/-- A factor takes axes that are apart from the rest. -/
theorem Proper.setAxes (ht : t.Proper m) (h : t.factor? k = some f) (hv : AllValid m axes)
    (ha : Apart m (axes ++ t.usedExcept k)) : (t.setAxes k axes).Proper m := by
  have hkeys : ((t.setAxes k axes).factors.map (·.1)).Nodup := by
    rw [TensorFactors.setAxes, Sorted.map_fst_update]
    exact ht.keys
  have hfactor : (t.setAxes k axes).factor? k = some { f with axes := axes } := by
    rw [factor?_setAxes, if_pos rfl, h]
    rfl
  have hperm := perm_claims hkeys hfactor
  rw [usedExcept_setAxes] at hperm
  have hrest := (allValid_append.1 (ht.valid.perm (perm_claims ht.keys h).symm)).2
  exact ⟨hkeys, (allValid_append.2 ⟨hv, hrest⟩).perm hperm, ha.perm hperm⟩

section dims

variable {mapping : Mapping} {dim : Nat} {fs : List Nat}

/-- The axes of a factor and those that overflow it, none if it is not there. -/
def held (entries : List (Nat × FactorSharding)) (k : Nat) : List AxisRef :=
  ((Sorted.find? k entries).map fun f => (Portion.ofFactor f).all).getD []

theorem dimAxes_eq (t : TensorFactors) (m : Mesh) (mapping : Mapping) (dim : Nat) :
    t.dimAxes m mapping dim
      = mergeAdjacent m ((mapping.factorsOf dim).flatMap (held t.factors)) := by
  rw [dimAxes]
  congr 2
  funext k
  unfold held factor?
  cases Sorted.find? k t.factors <;> rfl

theorem held_subset (entries : List (Nat × FactorSharding)) (k : Nat) :
    held entries k ⊆ entries.flatMap fun entry => (Portion.ofFactor entry.2).all := by
  intro a ha
  unfold held at ha
  cases hfind : Sorted.find? k entries with
  | none => simp [hfind] at ha
  | some f =>
    rw [hfind] at ha
    exact List.mem_flatMap.2 ⟨_, Sorted.mem_of_find? hfind, ha⟩

/-- Distinct factors cover no more than all of them. -/
theorem coverage_flatMap_held (hn : fs.Nodup) (entries : List (Nat × FactorSharding))
    (name : String) (c : Nat) : coverage m name c (fs.flatMap (held entries))
      ≤ coverage m name c (entries.flatMap fun entry => (Portion.ofFactor entry.2).all) := by
  induction entries generalizing fs with
  | nil =>
    have hnil : fs.flatMap (held []) = [] := List.flatMap_eq_nil_iff.2 fun k _ => rfl
    rw [hnil]
    exact Nat.zero_le _
  | cons entry rest ih =>
    have hother : ∀ {l : List Nat}, entry.1 ∉ l →
        l.flatMap (held (entry :: rest)) = l.flatMap (held rest) := by
      intro l hl
      refine List.flatMap_congr fun k hk => ?_
      have hne : entry.1 ≠ k := fun heq => hl (heq ▸ hk)
      rw [held, Sorted.find?_cons, if_neg hne, held]
    rw [List.flatMap_cons, coverage_append]
    by_cases hmem : entry.1 ∈ fs
    · have hperm := (List.perm_cons_erase hmem).flatMap_right (held (entry :: rest))
      have hown : held (entry :: rest) entry.1 = (Portion.ofFactor entry.2).all := by
        rw [held, Sorted.find?_cons, if_pos rfl]
        rfl
      rw [coverage_perm hperm, List.flatMap_cons, coverage_append, hown,
        hother hn.not_mem_erase]
      exact Nat.add_le_add_left (ih (hn.erase _)) _
    · rw [hother hmem]
      exact Nat.le_trans (ih hn) (Nat.le_add_left _ _)

/-- The axes of a dimension that is put together from its factors are valid and apart. -/
theorem Proper.dimAxes (ht : t.Proper m) (hn : mapping.dims.flatten.Nodup) (dim : Nat) :
    AllValid m (t.dimAxes m mapping dim) ∧ Apart m (t.dimAxes m mapping dim) := by
  have hnodup : (mapping.factorsOf dim).Nodup := by
    unfold Mapping.factorsOf
    cases hdim : mapping.dims[dim]? with
    | none => simp [hdim]
    | some fs =>
      simpa [hdim] using (List.nodup_flatten.1 hn).1 fs (List.mem_of_getElem? hdim)
  have hv : AllValid m ((mapping.factorsOf dim).flatMap (held t.factors)) := by
    intro a ha
    obtain ⟨k, -, hk⟩ := List.mem_flatMap.1 ha
    exact ht.valid a (List.mem_append_left _ (List.mem_append_left _ (held_subset _ k hk)))
  rw [dimAxes_eq]
  refine ⟨hv.mergeAdjacent, fun name c => ?_⟩
  rw [coverage_mergeAdjacent hv]
  have hfactors := coverage_flatMap_held (m := m) hnodup t.factors name c
  have hall := ht.apart name c
  simp only [claims, coverage_append] at hall
  omega

end dims

section project

variable {r : Rule} {mapping : Mapping} {s : Option TensorSharding} {fss : List (List Nat)}
  {dims : List DimSharding} {entries : List (Nat × FactorSharding)}

theorem coverage_dealOutDims (hv : ∀ d ∈ dims, AllValid m d.axes)
    (h : dealOutDims m r fss dims = .ok entries) (name : String) (c : Nat) :
    coverage m name c (entries.flatMap fun e => (Portion.ofFactor e.2).all)
      ≤ coverage m name c (dims.flatMap (·.axes)) := by
  induction fss generalizing dims entries with
  | nil => cases h; simp
  | cons fs fss ih =>
    obtain ⟨part, hpart, h⟩ := bind_eq_ok_iff.1 h
    obtain ⟨others, hothers, h⟩ := bind_eq_ok_iff.1 h
    cases h
    have hfirst := allValid_head hv
    obtain ⟨-, hvalid, hmerge⟩ := dealOut_spec hfirst hpart
    have hrest := ih (fun d hd => hv d (List.mem_of_mem_tail hd)) hothers
    have hhead : coverage m name c (part.flatMap fun e => (Portion.ofFactor e.2).all)
        ≤ coverage m name c (dims.head?.getD (.ofAxes [] false)).axes := by
      by_cases hfs : fs = []
      · subst hfs
        cases hpart
        exact Nat.zero_le _
      · have hall : AllValid m (part.flatMap fun e => (Portion.ofFactor e.2).all) := by
          intro a ha
          obtain ⟨e, he, hmem⟩ := List.mem_flatMap.1 ha
          exact hvalid e he a hmem
        rw [← coverage_mergeAdjacent hall, hmerge hfs, coverage_mergeAdjacent hfirst]
    rw [List.flatMap_append, coverage_append]
    cases dims with
    | nil => simpa [DimSharding.ofAxes] using Nat.add_le_add hhead hrest
    | cons d dims =>
      rw [List.flatMap_cons, coverage_append]
      exact Nat.add_le_add hhead hrest

/-- The projection of a valid sharding claims no place twice. -/
theorem proper_project (hs : ∀ x ∈ s, x.Valid m) (hn : mapping.dims.flatten.Nodup)
    (h : project m r mapping s = .ok t) : t.Proper m := by
  obtain ⟨entries, hentries, h⟩ := bind_eq_ok_iff.1 h
  cases h
  have hv := allValid_getD_dims fun x hx => (hs x hx).allValid_dims
  obtain ⟨hkeys, hvalid, -⟩ := dealOutDims_spec hv hentries
  rw [← hkeys] at hn
  have hperm := Sorted.perm_ofEntries hn
  refine ⟨(hperm.map (·.1)).nodup_iff.2 hn, ?_, fun name c => ?_⟩
  · refine allValid_append.2 ⟨allValid_append.2 ⟨fun a ha => ?_, ?_⟩, ?_⟩
    · obtain ⟨e, he, hmem⟩ := List.mem_flatMap.1 ha
      exact hvalid e (hperm.mem_iff.1 he) a hmem
    · cases s with
      | none => exact nofun
      | some s => exact (hs s rfl).allValid_extra.1
    · cases s with
      | none => exact nofun
      | some s => exact (hs s rfl).allValid_extra.2
  · have hdims := coverage_dealOutDims hv hentries name c
    have hall : coverage m name c (((s.map (·.dims)).getD []).flatMap (·.axes)
        ++ (s.map (·.replicated)).getD [] ++ (s.map (·.unreduced)).getD []) ≤ 1 := by
      cases s with
      | none => simp
      | some s => exact (hs s rfl).2 name c
    simp only [claims, coverage_append] at hall ⊢
    rw [coverage_perm (hperm.flatMap_right _)]
    omega

end project

end TensorFactors
end MeshSharding
