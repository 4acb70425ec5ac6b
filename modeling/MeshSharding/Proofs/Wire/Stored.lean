import MeshSharding.Proofs.Wire.Content

/-! What messages store of objects. A number beyond the signed words is stored as the largest signed
word. So an object has the same message as the one in which every such number is replaced by the
largest one, and it is the latter that comes back. -/
namespace MeshSharding

/-- The number that is stored for `n`. -/
def stored (n : Nat) : Nat := min n (signedBound - 1)

theorem stored_lt (n : Nat) : stored n < signedBound :=
  Nat.lt_of_le_of_lt (Nat.min_le_right _ _) (by decide)

theorem stored_pos {n : Nat} (h : 0 < n) : 0 < stored n := Nat.lt_min.2 ⟨h, by decide⟩

/-! ### Objects as they are stored -/

def Window.stored (w : Window) : Window :=
  ⟨MeshSharding.stored w.preSize, MeshSharding.stored w.size⟩

def AxisRef.stored (a : AxisRef) : AxisRef := ⟨a.name, a.window.map Window.stored⟩

def DimSharding.stored (d : DimSharding) : DimSharding :=
  ⟨d.axes.map AxisRef.stored, d.closed, d.priority.map MeshSharding.stored⟩

def TensorSharding.stored (s : TensorSharding) : TensorSharding :=
  ⟨s.meshName, s.dims.map DimSharding.stored, s.replicated.map AxisRef.stored,
    s.unreduced.map AxisRef.stored⟩

def MeshAxis.stored (a : MeshAxis) : MeshAxis :=
  ⟨a.name, MeshSharding.stored a.size, a.name_ne_empty, stored_pos a.size_pos⟩

def Factor.stored (f : Factor) : Factor := { f with size := MeshSharding.stored f.size }

/-- The factors that a mapping has are numbered, and no list has more of them than words count. -/
def Rule.stored (r : Rule) : Rule := { r with factors := r.factors.map Factor.stored }

def Move.stored (m : Move) : Move :=
  ⟨m.axes.map AxisRef.stored, MeshSharding.stored m.source, MeshSharding.stored m.target⟩

theorem AxisRef.isStorable_stored (a : AxisRef) : a.stored.IsStorable := by
  intro w hw
  obtain ⟨w, -, rfl⟩ := Option.map_eq_some_iff.1 hw
  exact ⟨stored_lt _, stored_lt _⟩

theorem AxisRef.isStorable_of_mem_stored {axes : List AxisRef} :
    ∀ a ∈ axes.map AxisRef.stored, a.IsStorable := by
  intro a ha
  obtain ⟨a, -, rfl⟩ := List.mem_map.1 ha
  exact a.isStorable_stored

theorem DimSharding.isStorable_stored (d : DimSharding) : d.stored.IsStorable := by
  refine ⟨AxisRef.isStorable_of_mem_stored, fun p hp => ?_⟩
  obtain ⟨p, -, rfl⟩ := Option.map_eq_some_iff.1 hp
  exact stored_lt p

theorem TensorSharding.isStorable_stored (s : TensorSharding) : s.stored.IsStorable := by
  refine ⟨fun d hd => ?_, AxisRef.isStorable_of_mem_stored, AxisRef.isStorable_of_mem_stored⟩
  obtain ⟨d, -, rfl⟩ := List.mem_map.1 hd
  exact d.isStorable_stored

theorem Move.isStorable_stored (m : Move) : m.stored.IsStorable :=
  ⟨AxisRef.isStorable_of_mem_stored, stored_lt _, stored_lt _⟩

namespace Rule

@[simp] theorem stored_factorCount (r : Rule) : r.stored.factorCount = r.factorCount := by
  simp [stored, factorCount]

theorem stored_sizes (r : Rule) : r.stored.sizes = r.sizes.map MeshSharding.stored := by
  simp [stored, sizes, Factor.stored, Function.comp_def]

/-- Where its size does not count, a factor is stored as it is. -/
theorem factorsWhere_stored (r : Rule) {p : Factor → Bool} (hp : ∀ f : Factor, p f.stored = p f) :
    r.stored.factorsWhere p = r.factorsWhere p := by
  simp [factorsWhere, stored, List.zipIdx_map, List.filter_map, Function.comp_def, hp]

/-- A rule whose mappings have factors of the rule only. -/
def MapsBelow (r : Rule) : Prop :=
  ∀ mapping ∈ r.allMappings, ∀ fs ∈ mapping.dims, ∀ f ∈ fs, f < r.factorCount

theorem isStorable_stored {r : Rule} (h : r.MapsBelow) : r.stored.IsStorable := by
  refine ⟨fun size hsize => ?_, by rwa [stored_factorCount]⟩
  rw [stored_sizes] at hsize
  obtain ⟨size, -, rfl⟩ := List.mem_map.1 hsize
  exact stored_lt size

end Rule

theorem Sizes.le_product {sizes : List Nat} (hpos : ∀ n ∈ sizes, 0 < n) {n : Nat}
    (hn : n ∈ sizes) : n ≤ product sizes := by
  induction sizes with
  | nil => cases hn
  | cons size sizes ih =>
    obtain ⟨hsize, hrest⟩ := List.forall_mem_cons.1 hpos
    rw [product_cons]
    rcases List.mem_cons.1 hn with rfl | hn
    · exact Nat.le_mul_of_pos_right _ (product_pos hrest)
    · exact Nat.le_trans (ih hrest hn) (Nat.le_mul_of_pos_left _ hsize)

/-- A mesh with ids has no more places along an axis than it has ids. -/
theorem Mesh.isStorable_of_deviceIds {m : Mesh} {ids : List Int64} (h : m.deviceIds = some ids)
    (hl : ids.length < signedBound) : m.IsStorable := fun axis haxis => by
  have hpos : ∀ n ∈ m.axes.map (·.size), 0 < n := by
    intro n hn
    obtain ⟨axis, -, rfl⟩ := List.mem_map.1 hn
    exact axis.size_pos
  have hle := Sizes.le_product hpos (List.mem_map_of_mem haxis)
  rw [← m.deviceIds_length ids h] at hle
  omega

/-! ### The messages of objects as they are stored -/

namespace Wire

theorem ofSize_stored (n : Nat) : ofSize (stored n) = ofSize n := by
  unfold ofSize stored
  by_cases h : n < signedBound
  · rw [Nat.min_eq_left (by omega)]
  · rw [Nat.min_eq_right (by omega), if_pos (by decide), if_neg h]
    rfl

theorem AxisMessage.ofAxis_stored (a : AxisRef) : ofAxis a.stored = ofAxis a := by
  have hwindow (w : Window) : ofWindow w.stored = ofWindow w := by
    simp [ofWindow, Window.stored, ofSize_stored]
  simp [ofAxis, AxisRef.stored, Function.comp_def, hwindow]

theorem AxisMessage.ofAxes_stored (axes : List AxisRef) :
    ofAxes (axes.map AxisRef.stored) = ofAxes axes := by
  simp [ofAxes, ofAxis_stored]

theorem DimMessage.ofDim_stored (d : DimSharding) : ofDim d.stored = ofDim d := by
  simp [ofDim, DimSharding.stored, AxisMessage.ofAxes_stored, ofSize_stored, Function.comp_def]

theorem ShardingMessage.ofSharding_stored (s : TensorSharding) :
    ofSharding s.stored = ofSharding s := by
  simp [ofSharding, TensorSharding.stored, DimMessage.ofDim_stored, AxisMessage.ofAxes_stored]

theorem MeshMessage.ofMeshAxis_stored (a : MeshAxis) : ofMeshAxis a.stored = ofMeshAxis a := by
  simp [ofMeshAxis, MeshAxis.stored, ofSize_stored]

theorem RuleMessage.ofRule_stored (r : Rule) : ofRule r.stored = ofRule r := by
  have htype (type : FactorType) : r.stored.factorsOfType type = r.factorsOfType type :=
    r.factorsWhere_stored fun _ => rfl
  have hblocked : r.stored.blockedFactors = r.blockedFactors := r.factorsWhere_stored fun _ => rfl
  have hsides : r.stored.operands = r.operands ∧ r.stored.results = r.results
      ∧ r.stored.custom = r.custom := ⟨rfl, rfl, rfl⟩
  simp [ofRule, Rule.stored_sizes, htype, hblocked, hsides, ofSize_stored, Function.comp_def]

theorem MoveMessage.ofMove_stored (m : Move) : ofMove m.stored = ofMove m := by
  simp [ofMove, Move.stored, AxisMessage.ofAxes_stored, ofSize_stored]

/-! ### What comes back -/

theorem ShardingMessage.sharding_ofSharding_eq (s : TensorSharding) :
    sharding (ofSharding s) = .ok s.stored := by
  rw [← ofSharding_stored, sharding_ofSharding s.isStorable_stored]

/-- The axes of a mesh come back as they are stored. -/
theorem MeshMessage.mapM_meshAxis (axes : List MeshAxis) :
    (axes.map ofMeshAxis).mapM meshAxis = .ok (axes.map MeshAxis.stored) :=
  mapM_map_eq_ok fun a _ => by rw [← ofMeshAxis_stored, meshAxis_ofMeshAxis (stored_lt _)]

/-- The message of a mesh always stands for a mesh, though perhaps for one with smaller axes. -/
theorem MeshMessage.exists_mesh_ofMesh {m : Mesh}
    (hl : (ofMesh m).deviceIds.length < signedBound) : ∃ n, mesh (ofMesh m) = .ok n := by
  cases hids : m.deviceIds with
  | none =>
    let n : Mesh := ⟨m.axes.map MeshAxis.stored, none, by
      simpa [MeshAxis.stored, Function.comp_def] using m.names_nodup, by simp, by simp⟩
    have haxes := mapM_meshAxis m.axes
    refine ⟨n, ?_⟩
    simp only [mesh, ofMesh, hids, haxes, Option.getD_none]
    exact Mesh.ofAxes_axes (m := n) rfl
  | some ids =>
    have hlength : ids.length < signedBound := by simpa [ofMesh, hids] using hl
    exact ⟨m, mesh_ofMesh (Mesh.isStorable_of_deviceIds hids hlength)
      (Nat.lt_trans hl (by decide))⟩

theorem RuleMessage.rule_ofRule_eq {r : Rule} (h : r.MapsBelow)
    (hcount : r.factorCount ≤ signedBound) : rule (ofRule r) = .ok r.stored := by
  rw [← ofRule_stored, rule_ofRule (Rule.isStorable_stored h) (by simpa using hcount)]

theorem MovesMessage.content_ofMoves_eq (ms : List Move) :
    content (ofMoves ms) = .ok (ms.map Move.stored) :=
  mapM_map_eq_ok fun m _ => by
    rw [← MoveMessage.ofMove_stored, MoveMessage.move_ofMove m.isStorable_stored]

end Wire
end MeshSharding
