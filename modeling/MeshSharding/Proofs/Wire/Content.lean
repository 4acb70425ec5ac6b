import MeshSharding.Wire.Content
import MeshSharding.Proofs.Layout.Stride
import MeshSharding.Proofs.Wire.Value

/-! Objects and the messages that stand for them. A signed word stores every number below its
bound, so an object whose numbers are below it comes back from its message. A rule comes back
factor by factor: the lists of factors of its message give each factor its type again. -/
namespace MeshSharding

/-! ### Objects that can be stored -/

def Window.IsStorable (w : Window) : Prop := w.preSize < signedBound ∧ w.size < signedBound
deriving Decidable

def AxisRef.IsStorable (a : AxisRef) : Prop := ∀ w ∈ a.window, w.IsStorable
deriving Decidable

def DimSharding.IsStorable (d : DimSharding) : Prop :=
  (∀ a ∈ d.axes, a.IsStorable) ∧ ∀ p ∈ d.priority, p < signedBound
deriving Decidable

def TensorSharding.IsStorable (s : TensorSharding) : Prop :=
  (∀ d ∈ s.dims, d.IsStorable) ∧ (∀ a ∈ s.replicated, a.IsStorable)
    ∧ ∀ a ∈ s.unreduced, a.IsStorable
deriving Decidable

def Mesh.IsStorable (m : Mesh) : Prop := ∀ axis ∈ m.axes, axis.size < signedBound
deriving Decidable

/-- The mappings of the rule have factors of the rule only. -/
def Rule.IsStorable (r : Rule) : Prop :=
  (∀ size ∈ r.sizes, size < signedBound) ∧
    ∀ mapping ∈ r.allMappings, ∀ fs ∈ mapping.dims, ∀ f ∈ fs, f < r.factorCount
deriving Decidable

def Move.IsStorable (m : Move) : Prop :=
  (∀ a ∈ m.axes, a.IsStorable) ∧ m.source < signedBound ∧ m.target < signedBound
deriving Decidable

namespace Mesh

/-- The checks of a mesh without ids find nothing in a mesh. -/
theorem ofAxes_axes {m : Mesh} (h : m.deviceIds = none) : ofAxes m.axes = .ok m := by
  obtain ⟨axes, ids, hnames, hlength, hids⟩ := m
  cases h
  have hrepeat := (firstRepeat_eq_none_iff (axes.map (·.name)) []).2 ⟨hnames, by simp⟩
  rw [ofAxes]
  split
  · rename_i heq
    rw [hrepeat] at heq
    cases heq
  · rfl

theorem ofAxesAndDevices_axes {m : Mesh} {ids : List Int64} (h : m.deviceIds = some ids)
    (hbound : ids.length < wordBound) : ofAxesAndDevices m.axes ids = .ok m := by
  obtain ⟨axes, ids, hnames, hlength, hids⟩ := m
  cases h
  have hrepeat := (firstRepeat_eq_none_iff (axes.map (·.name)) []).2 ⟨hnames, by simp⟩
  have hdevices := (firstRepeat_eq_none_iff ids []).2 ⟨hids ids rfl, by simp⟩
  have hcount : countOf axes = .ok (Sizes.product (axes.map (·.size))) :=
    if_pos (hlength ids rfl ▸ hbound)
  rw [ofAxesAndDevices]
  split
  · rename_i heq
    rw [hrepeat] at heq
    cases heq
  · rw [hcount]
    simp only [dif_pos (hlength ids rfl)]
    split
    · rename_i heq
      rw [hdevices] at heq
      cases heq
    · rfl

theorem deviceIds_ne_nil {m : Mesh} {ids : List Int64} (h : m.deviceIds = some ids) :
    ids ≠ [] := by
  rintro rfl
  have hpos := m.places_pos
  rw [places, ← m.deviceIds_length [] h] at hpos
  cases hpos

end Mesh

namespace Rule

variable {r : Rule} {i : Nat}

theorem mem_factorsWhere {p : Factor → Bool} :
    i ∈ r.factorsWhere p ↔ ∃ x, r.factors[i]? = some x ∧ p x = true := by
  simp [factorsWhere, List.mem_zipIdx_iff_getElem?]

theorem nodup_factorsWhere (r : Rule) (p : Factor → Bool) : (r.factorsWhere p).Nodup := by
  have hsub : (r.factorsWhere p).Sublist (r.factors.zipIdx.map (·.2)) :=
    List.filter_sublist.map _
  rw [List.zipIdx_map_snd] at hsub
  exact hsub.nodup List.nodup_range'

theorem nodup_factorsOfType (r : Rule) (type : FactorType) : (r.factorsOfType type).Nodup :=
  r.nodup_factorsWhere _

theorem lt_of_mem_factorsWhere {p : Factor → Bool} (h : i ∈ r.factorsWhere p) :
    i < r.factorCount := by
  obtain ⟨x, hx, -⟩ := mem_factorsWhere.1 h
  exact (List.getElem?_eq_some_iff.1 hx).1

theorem mem_factorsOfType {x : Factor} (hx : r.factors[i]? = some x) (type : FactorType) :
    i ∈ r.factorsOfType type ↔ x.type = type := by
  simp [factorsOfType, mem_factorsWhere, hx]

theorem mem_blockedFactors {x : Factor} (hx : r.factors[i]? = some x) :
    i ∈ r.blockedFactors ↔ x.blocked = true := by
  simp [blockedFactors, mem_factorsWhere, hx]

/-- All of the factors get the type. -/
def withTypes (r : Rule) (type : FactorType) (fs : List Nat) : Rule :=
  fs.foldl (fun r f => r.withType f type) r

/-- All of the factors are blocked. -/
def withAllBlocked (r : Rule) (fs : List Nat) : Rule := fs.foldl withBlocked r

theorem getElem?_withTypes (r : Rule) (type : FactorType) (fs : List Nat) :
    (r.withTypes type fs).factors[i]?
      = r.factors[i]?.map fun x => if i ∈ fs then { x with type := type } else x := by
  unfold withTypes
  induction fs generalizing r with
  | nil => simp
  | cons f fs ih =>
    rw [List.foldl_cons, ih, withType, List.getElem?_modify]
    cases r.factors[i]? <;> grind

theorem getElem?_withAllBlocked (r : Rule) (fs : List Nat) :
    (r.withAllBlocked fs).factors[i]?
      = r.factors[i]?.map fun x => if i ∈ fs then { x with blocked := true } else x := by
  unfold withAllBlocked
  induction fs generalizing r with
  | nil => simp
  | cons f fs ih =>
    rw [List.foldl_cons, ih, withBlocked, List.getElem?_modify]
    cases r.factors[i]? <;> grind

@[simp] theorem withTypes_factorCount (r : Rule) (type : FactorType) (fs : List Nat) :
    (r.withTypes type fs).factorCount = r.factorCount := by
  unfold withTypes
  induction fs generalizing r with
  | nil => rfl
  | cons f fs ih => rw [List.foldl_cons, ih, withType_factorCount]

theorem getElem?_ofSizes (r : Rule) : (ofSizes r.sizes [] []).factors[i]?
    = r.factors[i]?.map fun x => ⟨x.size, .passThrough, false⟩ := by
  simp [ofSizes, sizes, Function.comp_def]

/-- The factors that have the type in `r` are passed through in `s`. -/
def Awaits (r s : Rule) (type : FactorType) : Prop :=
  ∀ f ∈ r.factorsOfType type, ∃ x, s.factors[f]? = some x ∧ x.type = .passThrough

theorem awaits_ofSizes (r : Rule) (type : FactorType) :
    r.Awaits (ofSizes r.sizes [] []) type := fun f hf => by
  obtain ⟨x, hx, -⟩ := mem_factorsWhere.1 hf
  exact ⟨⟨x.size, .passThrough, false⟩, by rw [getElem?_ofSizes, hx]; rfl, rfl⟩

/-- No factor has two types. -/
theorem Awaits.withTypes {s : Rule} {type other : FactorType} (h : r.Awaits s type)
    (hne : type ≠ other) : r.Awaits (s.withTypes other (r.factorsOfType other)) type :=
  fun f hf => by
    obtain ⟨x, hx, htype⟩ := mem_factorsWhere.1 hf
    obtain ⟨y, hy, hpass⟩ := h f hf
    have hnot : f ∉ r.factorsOfType other := by
      rw [mem_factorsOfType hx]
      rintro rfl
      exact hne (of_decide_eq_true htype).symm
    exact ⟨y, by rw [getElem?_withTypes, hy, Option.map_some, if_neg hnot], hpass⟩

/-- A rule without types and blocks, and then with those of `r`. -/
def retyped (r : Rule) : Rule :=
  ((((ofSizes r.sizes [] []).withTypes .reduction (r.factorsOfType .reduction)).withTypes
    .needReplication (r.factorsOfType .needReplication)).withTypes
    .permutation (r.factorsOfType .permutation)).withAllBlocked r.blockedFactors

/-- A factor is passed through unless one of the lists has it, and at most one does. -/
theorem factors_retyped (r : Rule) : r.retyped.factors = r.factors := by
  refine List.ext_getElem? fun i => ?_
  simp only [retyped, getElem?_withAllBlocked, getElem?_withTypes, getElem?_ofSizes]
  cases hx : r.factors[i]? with
  | none => rfl
  | some x =>
    simp only [Option.map_some, mem_factorsOfType hx, mem_blockedFactors hx]
    obtain ⟨size, type, blocked⟩ := x
    cases type <;> cases blocked <;> rfl

end Rule

namespace Wire

theorem size_ofSize (field : String) {n : Nat} (h : n < signedBound) :
    size field (ofSize n) = .ok n := by
  have hnonneg : ¬ Int64.ofNat n < 0 := by
    rw [Int64.lt_iff_toInt_lt, Int64.toInt_ofNat_of_lt h, Int64.toInt_zero]
    omega
  have hindex : Word.index? (Int64.ofNat n) = some n := by
    rw [Word.index?, if_neg hnonneg, Int64.toNatClampNeg_ofNat_of_lt h]
  rw [size, ofSize, if_pos h, hindex]

/-- A list is read back if each of its elements is. -/
theorem mapM_map_eq_self {α β : Type} {f : β → Except Error α} {g : α → β} {l : List α}
    (hf : ∀ a ∈ l, f (g a) = .ok a) : (l.map g).mapM f = .ok l := by
  rw [mapM_map_eq_ok (h := id) hf, List.map_id]

theorem mapM_size (field : String) {l : List Nat} (h : ∀ n ∈ l, n < signedBound) :
    (l.map ofSize).mapM (size field) = .ok l :=
  mapM_map_eq_self fun n hn => size_ofSize field (h n hn)

theorem AxisMessage.axis_ofAxis {a : AxisRef} (h : a.IsStorable) : axis (ofAxis a) = .ok a := by
  obtain ⟨name, window⟩ := a
  cases window with
  | none => rfl
  | some w =>
    obtain ⟨hpreSize, hsize⟩ := h w rfl
    simp only [axis, ofAxis, ofWindow, Option.map_some, size_ofSize _ hpreSize,
      size_ofSize _ hsize]
    rfl

theorem AxisMessage.list_ofAxes {axes : List AxisRef} (h : ∀ a ∈ axes, a.IsStorable) :
    list (ofAxes axes) = .ok axes :=
  mapM_map_eq_self fun a ha => axis_ofAxis (h a ha)

theorem DimMessage.dim_ofDim {d : DimSharding} (h : d.IsStorable) : dim (ofDim d) = .ok d := by
  obtain ⟨axes, closed, priority⟩ := d
  have haxes := AxisMessage.list_ofAxes h.1
  cases priority with
  | none =>
    simp only [dim, ofDim, haxes]
    rfl
  | some p =>
    simp only [dim, ofDim, haxes, Option.map_some, Option.mapM_some,
      size_ofSize _ (h.2 p rfl)]
    rfl

theorem ShardingMessage.sharding_ofSharding {s : TensorSharding} (h : s.IsStorable) :
    sharding (ofSharding s) = .ok s := by
  have hdims : (s.dims.map DimMessage.ofDim).mapM DimMessage.dim = .ok s.dims :=
    mapM_map_eq_self fun d hd => DimMessage.dim_ofDim (h.1 d hd)
  simp only [sharding, ofSharding, hdims, AxisMessage.list_ofAxes h.2.1,
    AxisMessage.list_ofAxes h.2.2]
  rfl

namespace MeshMessage

theorem meshAxis_ofMeshAxis {a : MeshAxis} (h : a.size < signedBound) :
    meshAxis (ofMeshAxis a) = .ok a := by
  simp only [meshAxis, ofMeshAxis, size_ofSize _ h]
  simp [bind, Except.bind, MeshAxis.create, a.name_ne_empty, Nat.ne_of_gt a.size_pos]

theorem mesh_ofMesh {m : Mesh} (h : m.IsStorable)
    (hids : (ofMesh m).deviceIds.length < wordBound) : mesh (ofMesh m) = .ok m := by
  have haxes : (m.axes.map ofMeshAxis).mapM meshAxis = .ok m.axes :=
    mapM_map_eq_self fun a ha => meshAxis_ofMeshAxis (h a ha)
  rcases hdevices : m.deviceIds with _ | ids
  · simp only [mesh, ofMesh, haxes, hdevices, Option.getD_none]
    exact Mesh.ofAxes_axes hdevices
  · have hne : ids.isEmpty = false := by simpa using Mesh.deviceIds_ne_nil hdevices
    simp only [mesh, ofMesh, haxes, hdevices, Option.getD_some, hne] at hids ⊢
    exact Mesh.ofAxesAndDevices_axes hdevices hids

end MeshMessage

theorem MappingMessage.mapping_ofMapping {m : Mapping}
    (h : ∀ fs ∈ m.dims, ∀ f ∈ fs, f < signedBound) : mapping (ofMapping m) = .ok m := by
  have hdims : (m.dims.map fun fs => (⟨fs.map ofSize⟩ : DimMappingMessage)).mapM
      (fun dim => dim.factors.mapM (size "factor_indices")) = .ok m.dims :=
    mapM_map_eq_self fun fs hfs => mapM_size _ (h fs hfs)
  simp only [mapping, ofMapping, hdims]
  rfl

namespace RuleMessage

theorem factor_ofSize {count f : Nat} (field : String) (hcount : count ≤ signedBound)
    (hf : f < count) : factor count field (ofSize f) = .ok f := by
  simp only [factor, size_ofSize field (Nat.lt_of_lt_of_le hf hcount), bind, Except.bind,
    if_pos hf]
  rfl

/-- Each factor of the list is still passed through when it gets its type. -/
theorem foldlM_giveType (field : String) (type : FactorType) {fs : List Nat} (hn : fs.Nodup)
    {r : Rule} (hr : r.factorCount ≤ signedBound)
    (hfs : ∀ f ∈ fs, ∃ x, r.factors[f]? = some x ∧ x.type = .passThrough) :
    (fs.map ofSize).foldlM (giveType field type) r
      = .ok (r.withTypes type fs) := by
  induction fs generalizing r with
  | nil => rfl
  | cons f fs ih =>
    rw [List.nodup_cons] at hn
    obtain ⟨⟨x, hx, htype⟩, hrest⟩ := List.forall_mem_cons.1 hfs
    have hlt : f < r.factorCount := (List.getElem?_eq_some_iff.1 hx).1
    have hgive : giveType field type r (ofSize f) = .ok (r.withType f type) := by
      simp [giveType, factor_ofSize field hr hlt, bind, Except.bind, hx, htype, pure,
        Except.pure]
    rw [List.map_cons, List.foldlM_cons, hgive]
    refine ih hn.2 (by simpa using hr) fun g hg => ?_
    obtain ⟨y, hy, hpass⟩ := hrest g hg
    have hne : f ≠ g := fun heq => hn.1 (heq ▸ hg)
    exact ⟨y, (List.getElem?_modify_ne _ _ hne).trans hy, hpass⟩

theorem foldlM_block {fs : List Nat} {r : Rule} (hr : r.factorCount ≤ signedBound)
    (hfs : ∀ f ∈ fs, f < r.factorCount) :
    (fs.map ofSize).foldlM block r = .ok (r.withAllBlocked fs) := by
  induction fs generalizing r with
  | nil => rfl
  | cons f fs ih =>
    obtain ⟨hlt, hrest⟩ := List.forall_mem_cons.1 hfs
    have hblock : block r (ofSize f) = .ok (r.withBlocked f) := by
      simp only [block, factor_ofSize _ hr hlt]
      rfl
    rw [List.map_cons, List.foldlM_cons, hblock]
    exact ih (by simpa using hr) (by simpa using hrest)

theorem mappings_ofMapping {count : Nat} {ms : List Mapping} (hcount : count ≤ signedBound)
    (h : ∀ m ∈ ms, ∀ fs ∈ m.dims, ∀ f ∈ fs, f < count) :
    mappings count (ms.map MappingMessage.ofMapping) = .ok ms := by
  have hmapped : (ms.map MappingMessage.ofMapping).mapM MappingMessage.mapping = .ok ms :=
    mapM_map_eq_self fun m hm => MappingMessage.mapping_ofMapping fun fs hfs f hf =>
      Nat.lt_of_lt_of_le (h m hm fs hfs f hf) hcount
  have hfind : (ms.flatMap fun m => m.dims.flatten).find? (fun f => count ≤ f) = none := by
    refine List.find?_eq_none.2 fun f hf => ?_
    obtain ⟨m, hm, hf⟩ := List.mem_flatMap.1 hf
    obtain ⟨fs, hfs, hf⟩ := List.mem_flatten.1 hf
    have := h m hm fs hfs f hf
    simpa using this
  simp only [mappings, hmapped, bind, Except.bind, hfind]
  rfl

theorem rule_ofRule {r : Rule} (h : r.IsStorable) (hcount : r.factorCount ≤ signedBound) :
    rule (ofRule r) = .ok r := by
  have hlength : r.sizes.length = r.factorCount := by simp [Rule.sizes, Rule.factorCount]
  have hsizes := mapM_size "factor_sizes" h.1
  have hreduction := foldlM_giveType "reduction_factors" .reduction (r.nodup_factorsOfType .reduction)
    (by simpa [hlength] using hcount) (r.awaits_ofSizes .reduction)
  have hneed := foldlM_giveType "need_replication_factors" .needReplication
    (r.nodup_factorsOfType .needReplication) (by simpa [hlength] using hcount)
    ((r.awaits_ofSizes .needReplication).withTypes (by decide : _ ≠ .reduction))
  have hpermutation := foldlM_giveType "permutation_factors" .permutation
    (r.nodup_factorsOfType .permutation) (by simpa [hlength] using hcount)
    (((r.awaits_ofSizes .permutation).withTypes (by decide : _ ≠ .reduction)).withTypes
      (by decide : _ ≠ .needReplication))
  have hblocked : (r.blockedFactors.map ofSize).foldlM block _ = .ok r.retyped :=
    foldlM_block (by simpa [hlength] using hcount) fun f hf => by
      simpa [hlength] using Rule.lt_of_mem_factorsWhere hf
  have hoperands := mappings_ofMapping hcount fun m hm =>
    h.2 m (List.mem_append_left _ hm)
  have hresults := mappings_ofMapping hcount fun m hm =>
    h.2 m (List.mem_append_right _ hm)
  simp only [rule, ofRule, hsizes, bind, Except.bind, hreduction, hneed, hpermutation, hblocked,
    hlength, hoperands, hresults, Rule.factors_retyped]
  rfl

end RuleMessage

theorem MoveMessage.move_ofMove {m : Move} (h : m.IsStorable) : move (ofMove m) = .ok m := by
  simp only [move, ofMove, AxisMessage.list_ofAxes h.1, size_ofSize _ h.2.1,
    size_ofSize _ h.2.2]
  rfl

theorem MovesMessage.content_ofMoves {ms : List Move} (h : ∀ m ∈ ms, m.IsStorable) :
    content (ofMoves ms) = .ok ms :=
  mapM_map_eq_self fun m hm => MoveMessage.move_ofMove (h m hm)

end Wire
end MeshSharding
