import Mathlib.Data.List.Perm.Subperm
import MeshSharding.Proofs.Wire.Compact
import MeshSharding.Proofs.Wire.Record

/-! Messages that are accepted. An object that a message stands for can be stored, and its own message
is the one that it has been read from, but for the lists of the factors of a rule: these may have been
in another order, and a factor may have been blocked several times. -/
namespace MeshSharding

/-- The converse of `mapM_map_eq_self`. -/
theorem map_eq_of_mapM {α β : Type} {f : β → Except Error α} {g : α → β} {p : α → Prop}
    {l : List β} {l' : List α} (h : l.mapM f = .ok l')
    (hf : ∀ b a, f b = .ok a → p a ∧ g a = b) : (∀ a ∈ l', p a) ∧ l'.map g = l := by
  induction l generalizing l' with
  | nil =>
    cases h
    exact ⟨nofun, rfl⟩
  | cons b rest ih =>
    rw [List.mapM_cons] at h
    obtain ⟨a, ha, h⟩ := bind_eq_ok_iff.1 h
    obtain ⟨rest', hrest, h⟩ := bind_eq_ok_iff.1 h
    cases h
    obtain ⟨hp, rfl⟩ := hf b a ha
    obtain ⟨hall, rfl⟩ := ih hrest
    exact ⟨List.forall_mem_cons.2 ⟨hp, hall⟩, rfl⟩

/-- A fold whose steps all succeed. -/
theorem foldl_eq_of_foldlM {α β γ : Type} {f : γ → β → Except Error γ} {g : α → β}
    {step : γ → α → γ} {l : List β} {c c' : γ} (h : l.foldlM f c = .ok c')
    (hf : ∀ c b c', f c b = .ok c' → ∃ a, g a = b ∧ step c a = c') :
    ∃ l' : List α, l'.map g = l ∧ l'.foldl step c = c' := by
  induction l generalizing c with
  | nil =>
    cases h
    exact ⟨[], rfl, rfl⟩
  | cons b rest ih =>
    rw [List.foldlM_cons] at h
    obtain ⟨next, hnext, h⟩ := bind_eq_ok_iff.1 h
    obtain ⟨a, rfl, rfl⟩ := hf c b next hnext
    obtain ⟨l', rfl, rfl⟩ := ih h
    exact ⟨a :: l', rfl, rfl⟩

theorem MeshAxis.create_eq_ok {name : String} {size : Nat} {a : MeshAxis}
    (h : create name size = .ok a) : a.name = name ∧ a.size = size := by
  unfold create at h
  split at h
  · cases h
  · split at h
    · cases h
    · cases h
      exact ⟨rfl, rfl⟩

namespace Mesh

theorem ofAxes_eq_ok {axes : List MeshAxis} {m : Mesh} (h : ofAxes axes = .ok m) :
    m.axes = axes ∧ m.deviceIds = none := by
  unfold ofAxes at h
  split at h
  · cases h
  · cases h
    exact ⟨rfl, rfl⟩

theorem ofAxesAndDevices_eq_ok {axes : List MeshAxis} {ids : List Int64} {m : Mesh}
    (h : ofAxesAndDevices axes ids = .ok m) :
    m.axes = axes ∧ m.deviceIds = some ids ∧ m.deviceCount = .ok ids.length := by
  unfold ofAxesAndDevices at h
  split at h
  · cases h
  · split at h
    · cases h
    · rename_i count hcount
      split at h
      · rename_i hlength
        split at h
        · cases h
        · cases h
          refine ⟨rfl, rfl, ?_⟩
          rw [deviceCount, hcount, hlength]
          unfold countOf at hcount
          dsimp only at hcount
          split at hcount
          · exact hcount.symm
          · cases hcount
      · cases h

end Mesh

namespace Rule

variable {sizes reduction need permutation blocked : List Nat}

/-- A rule without mappings that has its types and blocks from lists of factors. -/
def ofLists (sizes reduction need permutation blocked : List Nat) : Rule :=
  ((((ofSizes sizes [] []).withTypes .reduction reduction).withTypes .needReplication
    need).withTypes .permutation permutation).withAllBlocked blocked

/-- The last list that has a factor gives it its type. -/
theorem getElem?_ofLists (i : Nat) :
    (ofLists sizes reduction need permutation blocked).factors[i]? = sizes[i]?.map fun size =>
      ⟨size, if i ∈ permutation then .permutation else if i ∈ need then .needReplication
        else if i ∈ reduction then .reduction else .passThrough, i ∈ blocked⟩ := by
  simp only [ofLists, getElem?_withAllBlocked, getElem?_withTypes, ofSizes, List.getElem?_map,
    Option.map_map]
  congr 1
  funext size
  simp only [Function.comp_apply]
  split_ifs <;> simp [*]

theorem sizes_ofLists : (ofLists sizes reduction need permutation blocked).sizes = sizes := by
  refine List.ext_getElem? fun i => ?_
  rw [Rule.sizes, List.getElem?_map, getElem?_ofLists, Option.map_map]
  exact Option.map_id'

/-- Each type and each block comes from the list for it. -/
theorem factorsWhere_subset_of_ofLists {r : Rule}
    (h : r.factors = (ofLists sizes reduction need permutation blocked).factors) :
    r.factorsOfType .reduction ⊆ reduction ∧ r.factorsOfType .needReplication ⊆ need ∧
      r.factorsOfType .permutation ⊆ permutation ∧ r.blockedFactors ⊆ blocked := by
  refine ⟨fun i hi => ?_, fun i hi => ?_, fun i hi => ?_, fun i hi => ?_⟩
  all_goals
    obtain ⟨x, hx, hp⟩ := mem_factorsWhere.1 hi
    rw [h, getElem?_ofLists] at hx
    obtain ⟨size, -, rfl⟩ := Option.map_eq_some_iff.1 hx
    grind

end Rule

namespace Wire

theorem size_eq_ok {field : String} {value : Int64} {n : Nat} (h : size field value = .ok n) :
    n < signedBound ∧ ofSize n = value := by
  unfold size Word.index? at h
  by_cases hneg : value < 0
  · rw [if_pos hneg] at h
    cases h
  · rw [if_neg hneg] at h
    cases h
    have hlt : value.toNatClampNeg < signedBound := value.toNatClampNeg_lt
    rw [ofSize, if_pos hlt]
    exact ⟨hlt, Int64.ofNat_toNatClampNeg value (Int64.not_lt.1 hneg)⟩

theorem AxisMessage.axis_eq_ok {m : AxisMessage} {a : AxisRef} (h : axis m = .ok a) :
    a.IsStorable ∧ ofAxis a = m := by
  obtain ⟨name, window⟩ := m
  unfold axis at h
  cases window with
  | none =>
    cases h
    exact ⟨nofun, rfl⟩
  | some w =>
    obtain ⟨preSize, hpreSize, h⟩ := bind_eq_ok_iff.1 h
    obtain ⟨n, hn, h⟩ := bind_eq_ok_iff.1 h
    cases h
    obtain ⟨hpreSizeLt, hpreSizeEq⟩ := size_eq_ok hpreSize
    obtain ⟨hnLt, hnEq⟩ := size_eq_ok hn
    refine ⟨?_, ?_⟩
    · rintro _ ⟨⟩
      exact ⟨hpreSizeLt, hnLt⟩
    · simp [ofAxis, ofWindow, AxisRef.sub, hpreSizeEq, hnEq]

theorem AxisMessage.list_eq_ok {ms : List AxisMessage} {axes : List AxisRef}
    (h : list ms = .ok axes) : (∀ a ∈ axes, a.IsStorable) ∧ ofAxes axes = ms :=
  map_eq_of_mapM h fun _ _ => axis_eq_ok

theorem DimMessage.dim_eq_ok {m : DimMessage} {d : DimSharding} (h : dim m = .ok d) :
    d.IsStorable ∧ ofDim d = m := by
  obtain ⟨axes, closed, priority⟩ := m
  obtain ⟨refs, hrefs, h⟩ := bind_eq_ok_iff.1 h
  obtain ⟨rank, hrank, h⟩ := bind_eq_ok_iff.1 h
  cases h
  obtain ⟨hstorable, haxes⟩ := AxisMessage.list_eq_ok hrefs
  cases priority with
  | none =>
    cases hrank
    exact ⟨⟨hstorable, nofun⟩, by rw [ofDim, haxes]; rfl⟩
  | some value =>
    rw [Option.mapM_some] at hrank
    obtain ⟨n, hn, hrank⟩ := bind_eq_ok_iff.1 hrank
    cases hrank
    obtain ⟨hlt, rfl⟩ := size_eq_ok hn
    refine ⟨⟨hstorable, ?_⟩, by rw [ofDim, haxes]; rfl⟩
    rintro _ ⟨⟩
    exact hlt

theorem ShardingMessage.sharding_eq_ok {m : ShardingMessage} {s : TensorSharding}
    (h : sharding m = .ok s) : s.IsStorable ∧ ofSharding s = m := by
  obtain ⟨dims, hdims, h⟩ := bind_eq_ok_iff.1 h
  obtain ⟨replicated, hreplicated, h⟩ := bind_eq_ok_iff.1 h
  obtain ⟨unreduced, hunreduced, h⟩ := bind_eq_ok_iff.1 h
  cases h
  obtain ⟨hdimsStorable, hdimsEq⟩ := map_eq_of_mapM hdims fun _ _ => DimMessage.dim_eq_ok
  obtain ⟨hreplicatedStorable, hreplicatedEq⟩ := AxisMessage.list_eq_ok hreplicated
  obtain ⟨hunreducedStorable, hunreducedEq⟩ := AxisMessage.list_eq_ok hunreduced
  exact ⟨⟨hdimsStorable, hreplicatedStorable, hunreducedStorable⟩,
    by rw [ofSharding, hdimsEq, hreplicatedEq, hunreducedEq]⟩

namespace MeshMessage

theorem meshAxis_eq_ok {m : MeshAxisMessage} {a : MeshAxis} (h : meshAxis m = .ok a) :
    a.size < signedBound ∧ ofMeshAxis a = m := by
  obtain ⟨name, value⟩ := m
  obtain ⟨n, hn, h⟩ := bind_eq_ok_iff.1 h
  obtain ⟨hname, hsize⟩ := MeshAxis.create_eq_ok h
  obtain ⟨hlt, heq⟩ := size_eq_ok hn
  exact ⟨hsize ▸ hlt, by rw [ofMeshAxis, hname, hsize, heq]⟩

theorem mesh_eq_ok {m : MeshMessage} {mesh' : Mesh} (h : mesh m = .ok mesh') :
    mesh'.IsStorable ∧ ofMesh mesh' = m ∧
      ∀ ids, mesh'.deviceIds = some ids → mesh'.deviceCount = .ok ids.length := by
  obtain ⟨axes, haxes, h⟩ := bind_eq_ok_iff.1 h
  obtain ⟨hstorable, heq⟩ := map_eq_of_mapM haxes fun _ _ => meshAxis_eq_ok
  obtain ⟨axisMessages, values⟩ := m
  split at h
  · rename_i hempty
    obtain ⟨rfl, hids⟩ := Mesh.ofAxes_eq_ok h
    refine ⟨hstorable, ?_, ?_⟩
    · rw [ofMesh, heq, hids, Option.getD_none, ← List.isEmpty_iff.1 hempty]
    · intro ids hsome
      cases hids.symm.trans hsome
  · obtain ⟨rfl, hids, hcount⟩ := Mesh.ofAxesAndDevices_eq_ok h
    refine ⟨hstorable, ?_, ?_⟩
    · rw [ofMesh, heq, hids, Option.getD_some]
    · rw [hids]
      rintro _ ⟨⟩
      exact hcount

end MeshMessage

theorem MoveMessage.move_eq_ok {m : MoveMessage} {move' : Move} (h : move m = .ok move') :
    move'.IsStorable ∧ ofMove move' = m := by
  obtain ⟨axes, haxes, h⟩ := bind_eq_ok_iff.1 h
  obtain ⟨source, hsource, h⟩ := bind_eq_ok_iff.1 h
  obtain ⟨target, htarget, h⟩ := bind_eq_ok_iff.1 h
  cases h
  obtain ⟨hstorable, haxesEq⟩ := AxisMessage.list_eq_ok haxes
  obtain ⟨hsourceLt, hsourceEq⟩ := size_eq_ok hsource
  obtain ⟨htargetLt, htargetEq⟩ := size_eq_ok htarget
  exact ⟨⟨hstorable, hsourceLt, htargetLt⟩, by rw [ofMove, haxesEq, hsourceEq, htargetEq]⟩

theorem MovesMessage.content_eq_ok {m : MovesMessage} {ms : List Move} (h : content m = .ok ms) :
    (∀ move ∈ ms, move.IsStorable) ∧ ofMoves ms = m := by
  obtain ⟨hstorable, heq⟩ := map_eq_of_mapM h fun _ _ => MoveMessage.move_eq_ok
  exact ⟨hstorable, by rw [ofMoves, heq]⟩

theorem MappingMessage.mapping_eq_ok {m : MappingMessage} {mapping' : Mapping}
    (h : mapping m = .ok mapping') : ofMapping mapping' = m := by
  obtain ⟨dims, hdims, h⟩ := bind_eq_ok_iff.1 h
  cases h
  have hdim (dim : DimMappingMessage) (fs : List Nat)
      (hfs : dim.factors.mapM (size "factor_indices") = .ok fs) :
      (∀ f ∈ fs, f < signedBound) ∧ DimMappingMessage.mk (fs.map ofSize) = dim := by
    obtain ⟨hlt, heq⟩ := map_eq_of_mapM hfs fun _ _ => size_eq_ok
    exact ⟨hlt, by rw [heq]⟩
  rw [ofMapping, (map_eq_of_mapM hdims hdim).2]

/-! ### Rules -/

namespace RuleMessage

variable {count : Nat} {field : String} {type : FactorType} {r r' : Rule} {value : Int64}

theorem factor_eq_ok {f : Nat} (h : factor count field value = .ok f) :
    f < count ∧ ofSize f = value := by
  obtain ⟨n, hn, h⟩ := bind_eq_ok_iff.1 h
  split at h
  · rename_i hlt
    cases h
    exact ⟨hlt, (size_eq_ok hn).2⟩
  · cases h

theorem giveType_eq_ok (h : giveType field type r value = .ok r') :
    ∃ f, ofSize f = value ∧ r.withType f type = r' := by
  obtain ⟨f, hf, h⟩ := bind_eq_ok_iff.1 h
  split at h
  · cases h
    exact ⟨f, (factor_eq_ok hf).2, rfl⟩
  · cases h

theorem exists_of_foldlM_giveType {values : List Int64}
    (h : values.foldlM (giveType field type) r = .ok r') :
    ∃ fs, fs.map ofSize = values ∧ r.withTypes type fs = r' :=
  foldl_eq_of_foldlM h fun _ _ _ => giveType_eq_ok

theorem block_eq_ok (h : block r value = .ok r') :
    ∃ f, ofSize f = value ∧ r.withBlocked f = r' := by
  obtain ⟨f, hf, h⟩ := bind_eq_ok_iff.1 h
  cases h
  exact ⟨f, (factor_eq_ok hf).2, rfl⟩

theorem exists_of_foldlM_block {values : List Int64} (h : values.foldlM block r = .ok r') :
    ∃ fs, fs.map ofSize = values ∧ r.withAllBlocked fs = r' :=
  foldl_eq_of_foldlM h fun _ _ _ => block_eq_ok

theorem mappings_eq_ok {ms : List MappingMessage} {mapped : List Mapping}
    (h : mappings count ms = .ok mapped) : mapped.map MappingMessage.ofMapping = ms ∧
      ∀ mapping ∈ mapped, ∀ fs ∈ mapping.dims, ∀ f ∈ fs, f < count := by
  obtain ⟨found, hfound, h⟩ := bind_eq_ok_iff.1 h
  split at h
  · cases h
  · rename_i hnone
    cases h
    have hmapping (m : MappingMessage) (mapping : Mapping) (hm : m.mapping = .ok mapping) :
        True ∧ MappingMessage.ofMapping mapping = m := ⟨trivial, MappingMessage.mapping_eq_ok hm⟩
    refine ⟨(map_eq_of_mapM hfound hmapping).2, fun mapping hmem fs hfs f hf => ?_⟩
    have hnot := List.find?_eq_none.1 hnone f
      (List.mem_flatMap.2 ⟨mapping, hmem, List.mem_flatten.2 ⟨fs, hfs, hf⟩⟩)
    simpa using hnot

/-- The values stand for factors among which all of the given ones are. -/
def Lists (values : List Int64) (factors : List Nat) : Prop :=
  ∃ fs, fs.map ofSize = values ∧ factors ⊆ fs

/-- What a rule has in common with a message that stands for it. -/
structure Accepts (m : RuleMessage) (r : Rule) : Prop where
  sizes : (ofRule r).sizes = m.sizes
  operands : (ofRule r).operands = m.operands
  results : (ofRule r).results = m.results
  reduction : Lists m.reduction (r.factorsOfType .reduction)
  needReplication : Lists m.needReplication (r.factorsOfType .needReplication)
  permutation : Lists m.permutation (r.factorsOfType .permutation)
  blocked : Lists m.blocked r.blockedFactors
  custom : r.custom = m.custom

theorem exists_ofLists_of_rule {m : RuleMessage} (h : rule m = .ok r) :
    ∃ sizes reduction need permutation blocked,
      r.factors = (Rule.ofLists sizes reduction need permutation blocked).factors ∧
      m.sizes.mapM (size "factor_sizes") = .ok sizes ∧ reduction.map ofSize = m.reduction ∧
      need.map ofSize = m.needReplication ∧ permutation.map ofSize = m.permutation ∧
      blocked.map ofSize = m.blocked ∧ mappings sizes.length m.operands = .ok r.operands ∧
      mappings sizes.length m.results = .ok r.results ∧ r.custom = m.custom := by
  obtain ⟨sizes, hsizes, h⟩ := bind_eq_ok_iff.1 h
  obtain ⟨r₁, hreduction, h⟩ := bind_eq_ok_iff.1 h
  obtain ⟨r₂, hneed, h⟩ := bind_eq_ok_iff.1 h
  obtain ⟨r₃, hpermutation, h⟩ := bind_eq_ok_iff.1 h
  obtain ⟨r₄, hblocked, h⟩ := bind_eq_ok_iff.1 h
  obtain ⟨operands, hoperands, h⟩ := bind_eq_ok_iff.1 h
  obtain ⟨results, hresults, h⟩ := bind_eq_ok_iff.1 h
  cases h
  obtain ⟨reduction, hreductionEq, rfl⟩ := exists_of_foldlM_giveType hreduction
  obtain ⟨need, hneedEq, rfl⟩ := exists_of_foldlM_giveType hneed
  obtain ⟨permutation, hpermutationEq, rfl⟩ := exists_of_foldlM_giveType hpermutation
  obtain ⟨blocked, hblockedEq, rfl⟩ := exists_of_foldlM_block hblocked
  exact ⟨sizes, reduction, need, permutation, blocked, rfl, hsizes, hreductionEq, hneedEq,
    hpermutationEq, hblockedEq, hoperands, hresults, rfl⟩

theorem rule_eq_ok {m : RuleMessage} (h : rule m = .ok r) : r.IsStorable ∧ m.Accepts r := by
  obtain ⟨sizes, reduction, need, permutation, blocked, hfactors, hsizes, hreduction, hneed,
    hpermutation, hblocked, hoperands, hresults, hcustom⟩ := exists_ofLists_of_rule h
  obtain ⟨hlt, hsizesEq⟩ := map_eq_of_mapM hsizes fun _ _ => size_eq_ok
  obtain ⟨hoperandsEq, hoperandsLt⟩ := mappings_eq_ok hoperands
  obtain ⟨hresultsEq, hresultsLt⟩ := mappings_eq_ok hresults
  obtain ⟨hreductionSub, hneedSub, hpermutationSub, hblockedSub⟩ :=
    Rule.factorsWhere_subset_of_ofLists hfactors
  have hsizesOf : r.sizes = sizes := by rw [Rule.sizes, hfactors, ← Rule.sizes, Rule.sizes_ofLists]
  have hcount : r.factorCount = sizes.length := by
    rw [← hsizesOf, Rule.sizes, List.length_map, Rule.factorCount]
  refine ⟨⟨by rwa [hsizesOf], fun mapping hmapping => ?_⟩, ?_⟩
  · rw [hcount]
    exact (List.mem_append.1 hmapping).elim (hoperandsLt mapping) (hresultsLt mapping)
  · exact ⟨by rw [ofRule, hsizesOf, hsizesEq], hoperandsEq, hresultsEq,
      ⟨_, hreduction, hreductionSub⟩, ⟨_, hneed, hneedSub⟩, ⟨_, hpermutation, hpermutationSub⟩,
      ⟨_, hblocked, hblockedSub⟩, hcustom⟩

end RuleMessage
end Wire
end MeshSharding
