import MeshSharding.Proofs.Rule.Primitive

/-! The built-in rules. The assignments of an operation whose attributes and shapes fit together
name each dimension at most once and have its size, so the rule verifies, and two tensors share
factors in the dimensions that the operation links. -/
namespace MeshSharding

namespace Signature

variable {operands : List Shape} {operand result : Shape} {p : TensorDim} {size : Nat}

theorem size?_cases (h : (⟨operands, [result]⟩ : Signature).size? p = some size) :
    (∃ i operand, operands[i]? = some operand ∧ p = .operand i p.dim ∧
      operand[p.dim]? = some size) ∨ (p = .result 0 p.dim ∧ result[p.dim]? = some size) := by
  obtain ⟨shape, hshape, hsize⟩ := size?_eq_some.1 h
  obtain ⟨⟨side, index⟩, dim⟩ := p
  cases side with
  | operand => exact .inl ⟨index, shape, hshape, rfl, hsize⟩
  | result =>
    cases index with
    | zero =>
      cases hshape
      exact .inr ⟨rfl, hsize⟩
    | succ index => cases hshape

theorem size?_cases_unary (h : (⟨[operand], [result]⟩ : Signature).size? p = some size) :
    (p = .operand 0 p.dim ∧ operand[p.dim]? = some size) ∨
      (p = .result 0 p.dim ∧ result[p.dim]? = some size) := by
  refine (size?_cases h).imp_left fun ⟨i, shape, hshape, hp, hsize⟩ => ?_
  cases i with
  | zero =>
    cases hshape
    exact ⟨hp, hsize⟩
  | succ i => cases hshape

end Signature

namespace Assignment

variable {o o' r : Option Nat} {f : Factor} {p : TensorDim}

theorem names_unary : (ofLists [o] [r] f).dim? p.tensor = some p.dim ↔
    (∃ dim, o = some dim ∧ p = .operand 0 dim) ∨ ∃ dim, r = some dim ∧ p = .result 0 dim := by
  obtain ⟨⟨side, index⟩, dim⟩ := p
  cases side <;> cases index <;> simp [ofLists, TensorDim.operand, TensorDim.result]

theorem names_binary : (ofLists [o, o'] [r] f).dim? p.tensor = some p.dim ↔
    (∃ dim, o = some dim ∧ p = .operand 0 dim) ∨ (∃ dim, o' = some dim ∧ p = .operand 1 dim) ∨
      ∃ dim, r = some dim ∧ p = .result 0 dim := by
  obtain ⟨⟨side, index⟩, dim⟩ := p
  cases side <;> rcases index with _ | _ | index <;>
    simp [ofLists, TensorDim.operand, TensorDim.result]

end Assignment

/-- Each dimension is at the position of one of the shape, and has its size unless data is permuted
along it. -/
def Positioned (sig : Signature) (shape : Shape) (type : Nat → Nat → FactorType × Bool) : Prop :=
  ∀ p size, sig.size? p = some size →
    ∃ n, shape[p.dim]? = some n ∧ (n = size ∨ (type p.dim n).1 = .permutation)

namespace Positioned

open Assignment

variable {sig : Signature} {shape : Shape} {type : Nat → Nat → FactorType × Bool} {p q : TensorDim}
  {size : Nat}

theorem fit (h : Positioned sig shape type) : Draft.Fit sig (positional shape type) := by
  refine ⟨apart_zipIdx fun i j _ _ t dim _ _ hi hj => ?_, fun a ha p size hp hnames => ?_,
    fun p size hp _ => ?_⟩
  · exact (Option.some.inj hi).trans (Option.some.inj hj).symm
  · obtain ⟨i, n, hn, rfl⟩ := mem_map_zipIdx.1 ha
    obtain rfl : i = p.dim := Option.some.inj hnames
    obtain ⟨n', hn', hsize⟩ := h p size hp
    obtain rfl := Option.some.inj (hn.symm.trans hn')
    exact hsize
  · obtain ⟨n, hn, -⟩ := h p size hp
    exact ⟨_, mem_map_zipIdx.2 ⟨p.dim, n, hn, rfl⟩, rfl⟩

theorem joins_iff (h : Positioned sig shape type) (hp : sig.size? p = some size) :
    Joins (positional shape type) p q ↔ p.dim = q.dim := by
  constructor
  · rintro ⟨a, ha, hp, hq⟩
    obtain ⟨i, n, -, rfl⟩ := mem_map_zipIdx.1 ha
    exact (Option.some.inj hp).symm.trans (Option.some.inj hq)
  · obtain ⟨n, hn, -⟩ := h p size hp
    exact fun heq => ⟨_, mem_map_zipIdx.2 ⟨p.dim, n, hn, rfl⟩, rfl, congrArg some heq⟩

end Positioned

namespace Primitive

open Assignment Draft
open RuleFactory (DotDims)

variable {name : String} {operands : List Shape} {operand input result : Shape}
  {dims permutation reduced : List Nat} {along count size : Nat} {p q : TensorDim}

/-- A list whose elements are those that are found has each of them where it is found. -/
theorem getElem?_eq_some_iff_of_map {result : Shape} {found : List (Option Nat)}
    (h : result.map some = found) {i : Nat} :
    result[i]? = some size ↔ found[i]? = some (some size) := by
  rw [← h, List.getElem?_map, Option.map_eq_some_iff]
  simp

section positional

theorem positioned_elementwise (h : WellFormed (.elementwise name operands result)) :
    Positioned (signature (.elementwise name operands result)) result
      fun _ _ => (.passThrough, false) := by
  cases h with | elementwise named shapes =>
  intro p size hp
  rcases Signature.size?_cases hp with ⟨i, operand, hi, -, hsize⟩ | ⟨-, hsize⟩
  · rcases shapes operand (List.mem_of_getElem? hi) with rfl | rfl
    · exact ⟨size, hsize, .inl rfl⟩
    · cases hsize
  · exact ⟨size, hsize, .inl rfl⟩

theorem positioned_concatenate (h : WellFormed (.concatenate along operands result)) :
    Positioned (signature (.concatenate along operands result)) result fun dim _ =>
      (if dim = along then .permutation else .passThrough, false) := by
  cases h with | concatenate nonempty below rank sizes =>
  intro p size hp
  rcases Signature.size?_cases hp with ⟨i, operand, hi, -, hsize⟩ | ⟨-, hsize⟩
  · have hmem := List.mem_of_getElem? hi
    by_cases hdim : p.dim = along
    · have hlt := (List.getElem?_eq_some_iff.1 hsize).1
      rw [rank operand hmem] at hlt
      exact ⟨_, List.getElem?_eq_getElem hlt, .inr (if_pos hdim)⟩
    · exact ⟨size, (sizes operand hmem p.dim hdim).symm.trans hsize, .inl rfl⟩
  · exact ⟨size, hsize, .inl rfl⟩

/-- Data moves along the dimensions whose sizes differ. -/
theorem positioned_mismatch {sig : Signature} (rank : operand.length = result.length)
    (h : ∀ p size, sig.size? p = some size →
      operand[p.dim]? = some size ∨ result[p.dim]? = some size) :
    Positioned sig operand fun dim size =>
      if result[dim]? = some size then (.passThrough, false) else (.permutation, true) := by
  intro p size hp
  rcases h p size hp with hsize | hsize
  · exact ⟨size, hsize, .inl rfl⟩
  · have hlt := (List.getElem?_eq_some_iff.1 hsize).1
    rw [← rank] at hlt
    refine ⟨_, List.getElem?_eq_getElem hlt, ?_⟩
    by_cases heq : result[p.dim]? = some operand[p.dim]
    · exact .inl (Option.some.inj (heq.symm.trans hsize))
    · exact .inr (congrArg Prod.fst (if_neg heq))

theorem positioned_slice (h : WellFormed (.slice operand result)) :
    Positioned (signature (.slice operand result)) operand fun dim size =>
      if result[dim]? = some size then (.passThrough, false) else (.permutation, true) := by
  cases h with | slice rank =>
  exact positioned_mismatch rank fun p size hp =>
    (Signature.size?_cases_unary hp).imp And.right And.right

theorem positioned_pad (h : WellFormed (.pad operand result)) :
    Positioned (signature (.pad operand result)) operand fun dim size =>
      if result[dim]? = some size then (.passThrough, false) else (.permutation, true) := by
  cases h with | pad rank =>
  refine positioned_mismatch rank fun p size hp => ?_
  rcases Signature.size?_cases hp with ⟨i, shape, hi, -, hsize⟩ | ⟨-, hsize⟩
  · match i with
    | 0 =>
      cases hi
      exact .inl hsize
    | 1 =>
      cases hi
      cases hsize
  · exact .inr hsize

theorem linked_positional_iff {op : Primitive}
    (h : ∀ g, op.Linked g ↔ ∃ dim, g = {p : TensorDim | p.dim = dim}) :
    (∃ g, op.Linked g ∧ p ∈ g ∧ q ∈ g) ↔ p.dim = q.dim := by
  constructor
  · rintro ⟨g, hg, hp, hq⟩
    obtain ⟨dim, rfl⟩ := (h g).1 hg
    exact Eq.trans hp (Eq.symm hq)
  · exact fun heq => ⟨_, (h _).2 ⟨p.dim, rfl⟩, rfl, heq.symm⟩

end positional

section unary

variable {α : Type} {l : List α} {source : α × Nat → Option Nat} {factor : α × Nat → Factor}

/-- Factors that the dimensions of a result share with the dimensions of an operand. -/
def unaryAssignments (l : List α) (source : α × Nat → Option Nat) (factor : α × Nat → Factor) :
    List Assignment :=
  l.zipIdx.map fun x => ofLists [source x] [some x.2] (factor x)

theorem fit_unary
    (once : ∀ i j x y dim, l[i]? = some x → l[j]? = some y → source (x, i) = some dim →
      source (y, j) = some dim → i = j)
    (sizes : ∀ i : Nat, result[i]? = l[i]?.map fun x => (factor (x, i)).size)
    (sources : ∀ i x dim, l[i]? = some x → source (x, i) = some dim →
      operand[dim]? = some (factor (x, i)).size)
    (named : ∀ dim size : Nat, operand[dim]? = some size → size ≠ 1 →
      ∃ i x, l[i]? = some x ∧ source (x, i) = some dim) :
    Fit ⟨[operand], [result]⟩ (unaryAssignments l source factor) := by
  refine ⟨apart_zipIdx fun i j x y t dim hx hy hi hj => ?_, fun a ha p size hp hnames => .inl ?_,
    fun p size hp hne => ?_⟩
  · rcases (names_unary (p := ⟨t, dim⟩)).1 hi with ⟨d, hd, hp⟩ | ⟨d, hd, hp⟩ <;>
      rcases (names_unary (p := ⟨t, dim⟩)).1 hj with ⟨d', hd', hp'⟩ | ⟨d', hd', hp'⟩
    · cases hp.symm.trans hp'
      exact once i j x y d hx hy hd hd'
    · cases hp.symm.trans hp'
    · cases hp.symm.trans hp'
    · cases hp.symm.trans hp'
      exact (Option.some.inj hd).trans (Option.some.inj hd').symm
  · obtain ⟨i, x, hx, rfl⟩ := mem_map_zipIdx.1 ha
    rcases names_unary.1 hnames with ⟨dim, hdim, rfl⟩ | ⟨dim, hdim, rfl⟩
    · exact Option.some.inj ((sources i x dim hx hdim).symm.trans hp)
    · cases hdim
      have hsize := sizes i
      rw [hx, Option.map_some] at hsize
      exact Option.some.inj (hsize.symm.trans hp)
  · rcases Signature.size?_cases_unary hp with ⟨hplace, hsize⟩ | ⟨hplace, hsize⟩
    · obtain ⟨i, x, hx, hdim⟩ := named p.dim size hsize hne
      exact ⟨_, mem_map_zipIdx.2 ⟨i, x, hx, rfl⟩, names_unary.2 (.inl ⟨p.dim, hdim, hplace⟩)⟩
    · rw [sizes, Option.map_eq_some_iff] at hsize
      obtain ⟨x, hx, -⟩ := hsize
      exact ⟨_, mem_map_zipIdx.2 ⟨p.dim, x, hx, rfl⟩, names_unary.2 (.inr ⟨p.dim, rfl, hplace⟩)⟩

theorem joins_unary (hne : p.tensor ≠ q.tensor) :
    Joins (unaryAssignments l source factor) p q ↔
      ∃ i x dim, l[i]? = some x ∧ source (x, i) = some dim ∧
        p ∈ ({.operand 0 dim, .result 0 i} : Set TensorDim) ∧
        q ∈ ({.operand 0 dim, .result 0 i} : Set TensorDim) := by
  constructor
  · rintro ⟨a, ha, hp, hq⟩
    obtain ⟨i, x, hx, rfl⟩ := mem_map_zipIdx.1 ha
    rcases names_unary.1 hp with ⟨dim, hdim, hp⟩ | ⟨dim, hdim, hp⟩
    · rcases names_unary.1 hq with ⟨dim', hdim', hq⟩ | ⟨dim', hdim', hq⟩
      · exact absurd (by rw [hp, hq]; rfl) hne
      · cases hdim'
        exact ⟨i, x, dim, hx, hdim, .inl hp, .inr hq⟩
    · cases hdim
      rcases names_unary.1 hq with ⟨dim', hdim', hq⟩ | ⟨dim', hdim', hq⟩
      · exact ⟨i, x, dim', hx, hdim', .inr hp, .inl hq⟩
      · exact absurd (by rw [hp, hq]; rfl) hne
  · rintro ⟨i, x, dim, hx, hdim, hp, hq⟩
    refine ⟨_, mem_map_zipIdx.2 ⟨i, x, hx, rfl⟩, names_unary.2 ?_, names_unary.2 ?_⟩
    · exact hp.imp (fun hp => ⟨dim, hdim, hp⟩) fun hp => ⟨i, rfl, hp⟩
    · exact hq.imp (fun hq => ⟨dim, hdim, hq⟩) fun hq => ⟨i, rfl, hq⟩

end unary

section broadcastInDim

/-- The operand dimension that the factor of a result dimension is in. -/
theorem mem_source {x : Nat × Nat} {dim : Nat} (nodup : dims.Nodup) :
    (dims.idxOf? x.2).filter (fun dim => operand[dim]? = some x.1) = some dim ↔
      dims[dim]? = some x.2 ∧ operand[dim]? = some x.1 := by
  rw [Option.filter_eq_some_iff, nodup.idxOf?_eq_some_iff, decide_eq_true_iff]

theorem fit_broadcastInDim (h : WellFormed (.broadcastInDim dims operand result)) :
    Fit (signature (.broadcastInDim dims operand result))
      (assignments (.broadcastInDim dims operand result)) := by
  cases h with | broadcastInDim nodup rank below sizes =>
  refine fit_unary (fun i j _ _ dim _ _ hi hj => ?_) ?_ (fun i n dim hn hdim => ?_)
    fun dim size hsize hne => ?_
  · obtain ⟨hi, -⟩ := (mem_source nodup).1 hi
    obtain ⟨hj, -⟩ := (mem_source nodup).1 hj
    exact Option.some.inj (hi.symm.trans hj)
  · exact fun i => Option.map_id_apply.symm
  · exact ((mem_source nodup).1 hdim).2
  · have hlt := (List.getElem?_eq_some_iff.1 hsize).1
    have hdims := List.getElem?_eq_getElem (rank.symm ▸ hlt)
    have hresult := (sizes dim _ size hdims hsize).resolve_left hne
    exact ⟨_, size, hresult, (mem_source nodup).2 ⟨hdims, hsize⟩⟩

theorem joins_broadcastInDim (h : WellFormed (.broadcastInDim dims operand result))
    (hne : p.tensor ≠ q.tensor) :
    Joins (assignments (.broadcastInDim dims operand result)) p q ↔
      ∃ g, Linked (.broadcastInDim dims operand result) g ∧ p ∈ g ∧ q ∈ g := by
  cases h with | broadcastInDim nodup rank below sizes =>
  refine (joins_unary hne).trans ⟨?_, ?_⟩
  · rintro ⟨dim, size, i, hsize, hi, hp, hq⟩
    obtain ⟨hdim, hoperand⟩ := (mem_source nodup).1 hi
    exact ⟨_, .broadcastInDim hdim hoperand hsize, hp, hq⟩
  · rintro ⟨g, hg, hp, hq⟩
    cases hg with | @broadcastInDim _ _ _ i dim size hdim hoperand hresult =>
    exact ⟨dim, size, i, hresult, (mem_source nodup).2 ⟨hdim, hoperand⟩, hp, hq⟩

end broadcastInDim

section transpose

theorem fit_transpose (h : WellFormed (.transpose permutation operand result)) :
    Fit (signature (.transpose permutation operand result))
      (assignments (.transpose permutation operand result)) := by
  cases h with | transpose perm sizes =>
  have hbelow : ∀ {i dim : Nat}, permutation[i]? = some dim →
      operand[dim]? = some (operand.getD dim 1) := fun hi => by
    have hlt := List.mem_range.1 (perm.mem_iff.1 (List.mem_of_getElem? hi))
    rw [List.getD_eq_getElem?_getD, List.getElem?_eq_getElem hlt, Option.getD_some]
  refine fit_unary (fun i j _ _ dim hi hj hx hy => ?_) (fun i => ?_) (fun i dim _ hi hdim => ?_)
    fun dim size hsize _ => ?_
  · cases hx
    cases hy
    exact (List.getElem?_inj (List.getElem?_eq_some_iff.1 hi).1
      (perm.nodup_iff.2 List.nodup_range)).1 (hi.trans hj.symm)
  · have hsizes := congrArg (·[i]?) sizes
    simp only [List.getElem?_map] at hsizes
    cases hi : permutation[i]? with
    | none => simpa [hi] using hsizes
    | some dim =>
      rw [hi, Option.map_some, hbelow hi] at hsizes
      simpa using hsizes
  · cases hdim
    exact hbelow hi
  · have hmem := perm.mem_iff.2 (List.mem_range.2 (List.getElem?_eq_some_iff.1 hsize).1)
    obtain ⟨i, hi⟩ := List.mem_iff_getElem?.1 hmem
    exact ⟨i, dim, hi, rfl⟩

theorem joins_transpose (hne : p.tensor ≠ q.tensor) :
    Joins (assignments (.transpose permutation operand result)) p q ↔
      ∃ g, Linked (.transpose permutation operand result) g ∧ p ∈ g ∧ q ∈ g := by
  refine (joins_unary hne).trans ⟨?_, ?_⟩
  · rintro ⟨i, dim, _, hi, hdim, hp, hq⟩
    cases hdim
    exact ⟨_, .transpose hi, hp, hq⟩
  · rintro ⟨g, hg, hp, hq⟩
    cases hg with | @transpose _ _ _ i dim hi =>
    exact ⟨i, dim, dim, hi, rfl, hp, hq⟩

end transpose

section reduce

theorem mem_keptDims {dim : Nat} :
    dim ∈ keptDims reduced input ↔ dim < input.length ∧ dim ∉ reduced := by
  simp [keptDims]

theorem nodup_keptDims (reduced : List Nat) (input : Shape) : (keptDims reduced input).Nodup :=
  List.nodup_range.filter _

theorem size?_cases_reduce
    (h : (signature (.reduce reduced count input result)).size? p = some size) :
    (p.tensor.side = .operand ∧ p.tensor.index < count ∧ input[p.dim]? = some size) ∨
      (p.tensor.side = .result ∧ result[p.dim]? = some size) := by
  obtain ⟨shape, hshape, hsize⟩ := Signature.size?_eq_some.1 h
  obtain ⟨⟨side, index⟩, dim⟩ := p
  cases side with
  | operand =>
    have hshape : (List.replicate count input ++ List.replicate count [])[index]? = some shape :=
      hshape
    by_cases hlt : index < count
    · rw [List.getElem?_append_left (by simpa using hlt),
        List.getElem?_replicate_of_lt hlt] at hshape
      cases hshape
      exact .inl ⟨rfl, hlt, hsize⟩
    · -- a scalar has no dimension
      rw [List.getElem?_append_right (by simpa using hlt)] at hshape
      obtain rfl := List.eq_of_mem_replicate (List.mem_of_getElem? hshape)
      cases hsize
  | result =>
    obtain rfl := List.eq_of_mem_replicate (List.mem_of_getElem? hshape)
    exact .inr ⟨rfl, hsize⟩

/-- The dimensions that have the factor of dimension `x.2` of the inputs. -/
theorem names_reduce {x : Nat × Nat}
    (h : (signature (.reduce reduced count input result)).size? p = some size) :
    (reduceAssignment reduced count input x).dim? p.tensor = some p.dim ↔
      (p.tensor.side = .operand ∧ p.dim = x.2) ∨
        (p.tensor.side = .result ∧ (keptDims reduced input)[p.dim]? = some x.2) := by
  rw [← (nodup_keptDims reduced input).idxOf?_eq_some_iff]
  have hcases := size?_cases_reduce h
  obtain ⟨⟨side, index⟩, dim⟩ := p
  cases side with
  | operand =>
    have hlt : index < count := (hcases.resolve_right nofun).2.1
    simp [reduceAssignment, hlt, eq_comm]
  | result => simp [reduceAssignment]

theorem fit_reduce (h : WellFormed (.reduce reduced count input result)) :
    Fit (signature (.reduce reduced count input result))
      (assignments (.reduce reduced count input result)) := by
  cases h with | reduce pos sizes =>
  have hresult : ∀ {i size : Nat}, result[i]? = some size →
      ∃ dim, (keptDims reduced input)[i]? = some dim ∧ input[dim]? = some size := fun hi => by
    rwa [getElem?_eq_some_iff_of_map sizes, List.getElem?_map, Option.map_eq_some_iff] at hi
  refine ⟨apart_zipIdx fun i j _ _ t dim _ _ hi hj => ?_, fun a ha p size hp hnames => .inl ?_,
    fun p size hp _ => ?_⟩
  · obtain ⟨side, index⟩ := t
    cases side with
    | operand =>
      simp only [reduceAssignment, Option.ite_none_right_eq_some, Option.some.injEq] at hi hj
      exact hi.2.trans hj.2.symm
    | result =>
      have hi := (nodup_keptDims reduced input).idxOf?_eq_some_iff.1 hi
      have hj := (nodup_keptDims reduced input).idxOf?_eq_some_iff.1 hj
      exact Option.some.inj (hi.symm.trans hj)
  · obtain ⟨i, n, hn, rfl⟩ := mem_map_zipIdx.1 ha
    refine Option.some.inj (hn.symm.trans ?_)
    rcases (names_reduce hp).1 hnames with ⟨hside, hdim⟩ | ⟨hside, hdim⟩ <;>
      rcases size?_cases_reduce hp with ⟨hside', -, hsize⟩ | ⟨hside', hsize⟩
    · exact (congrArg (input[·]?) hdim).symm.trans hsize
    · cases hside.symm.trans hside'
    · cases hside.symm.trans hside'
    · obtain ⟨dim, hkept, hsize⟩ := hresult hsize
      obtain rfl := Option.some.inj (hdim.symm.trans hkept)
      exact hsize
  · rcases size?_cases_reduce hp with ⟨hside, -, hsize⟩ | ⟨hside, hsize⟩
    · exact ⟨_, mem_map_zipIdx.2 ⟨p.dim, size, hsize, rfl⟩, (names_reduce hp).2 (.inl ⟨hside, rfl⟩)⟩
    · obtain ⟨dim, hkept, hsize⟩ := hresult hsize
      exact ⟨_, mem_map_zipIdx.2 ⟨dim, size, hsize, rfl⟩, (names_reduce hp).2 (.inr ⟨hside, hkept⟩)⟩

theorem joins_reduce (hp : (signature (.reduce reduced count input result)).size? p = some size)
    {size' : Nat} (hq : (signature (.reduce reduced count input result)).size? q = some size') :
    Joins (assignments (.reduce reduced count input result)) p q ↔
      ∃ g, Linked (.reduce reduced count input result) g ∧ p ∈ g ∧ q ∈ g := by
  constructor
  · rintro ⟨a, ha, hnp, hnq⟩
    obtain ⟨dim, n, hn, rfl⟩ := mem_map_zipIdx.1 ha
    have hnp := (names_reduce hp).1 hnp
    have hnq := (names_reduce hq).1 hnq
    by_cases hdim : dim ∈ reduced
    · have hnot : ∀ i : Nat, (keptDims reduced input)[i]? ≠ some dim := fun i hi =>
        (mem_keptDims.1 (List.mem_of_getElem? hi)).2 hdim
      exact ⟨_, .reduced hdim, hnp.resolve_right fun hr => hnot _ hr.2,
        hnq.resolve_right fun hr => hnot _ hr.2⟩
    · obtain ⟨i, hi⟩ := List.mem_iff_getElem?.1
        (mem_keptDims.2 ⟨(List.getElem?_eq_some_iff.1 hn).1, hdim⟩)
      have heq : ∀ {j : Nat}, (keptDims reduced input)[j]? = some dim → j = i := fun hj =>
        (List.getElem?_inj (List.getElem?_eq_some_iff.1 hj).1 (nodup_keptDims ..)).1
          (hj.trans hi.symm)
      exact ⟨_, .kept hi, hnp.imp_right (And.imp_right heq), hnq.imp_right (And.imp_right heq)⟩
  · rintro ⟨g, hg, hpg, hqg⟩
    cases hg with
    | reduced hmem =>
      obtain ⟨hside, hdim⟩ := hpg
      rcases size?_cases_reduce hp with ⟨-, -, hsize⟩ | ⟨hside', -⟩
      · exact ⟨_, mem_map_zipIdx.2 ⟨p.dim, size, hsize, rfl⟩,
          (names_reduce hp).2 (.inl ⟨hside, rfl⟩),
          (names_reduce hq).2 (.inl (hqg.imp_right fun heq => heq.trans hdim.symm))⟩
      · cases hside.symm.trans hside'
    | @kept _ _ _ _ i dim hkept =>
      have hlt := (mem_keptDims.1 (List.mem_of_getElem? hkept)).1
      have hnames : ∀ {p : TensorDim}, p.tensor.side = .operand ∧ p.dim = dim ∨
          p.tensor.side = .result ∧ p.dim = i → (p.tensor.side = .operand ∧ p.dim = dim) ∨
            (p.tensor.side = .result ∧ (keptDims reduced input)[p.dim]? = some dim) :=
        fun h => h.imp_right (And.imp_right fun heq => by rw [heq, hkept])
      exact ⟨_, mem_map_zipIdx.2 ⟨dim, _, List.getElem?_eq_getElem hlt, rfl⟩,
        (names_reduce hp).2 (hnames hpg), (names_reduce hq).2 (hnames hqg)⟩

end reduce

section dotGeneral

variable {d : DotDims} {lhs rhs : Shape} {a : Assignment}

theorem free_perm {batch contract : List Nat} {n : Nat} (hn : (batch ++ contract).Nodup)
    (hbelow : ∀ dim ∈ batch ++ contract, dim < n) :
    (batch ++ (List.range n).filter (fun dim => dim ∉ batch ∧ dim ∉ contract) ++ contract).Perm
      (List.range n) := by
  set free := (List.range n).filter fun dim => dim ∉ batch ∧ dim ∉ contract
  have hfree : ∀ {dim}, dim ∈ free ↔ dim < n ∧ dim ∉ batch ++ contract := by simp [free]
  have hperm : (batch ++ free ++ contract).Perm (free ++ (batch ++ contract)) := by
    rw [← List.append_assoc]
    exact List.perm_append_comm.append_right contract
  have hnodup : (free ++ (batch ++ contract)).Nodup :=
    List.nodup_append.2 ⟨List.nodup_range.filter _, hn, fun x hx y hy heq =>
      (hfree.1 hx).2 (heq ▸ hy)⟩
  refine hperm.trans ((List.perm_ext_iff_of_nodup hnodup List.nodup_range).2 fun dim => ?_)
  rw [List.mem_append, hfree, List.mem_range]
  have := hbelow dim
  tauto

theorem map_fst_zipIdx {α β : Type} (l : List α) (f : α → β) :
    (l.zipIdx.map fun x => f x.1) = l.map f := by
  conv_rhs => rw [← List.zipIdx_map_fst 0 l, List.map_map]
  rfl

theorem map_snd_zipIdx {α : Type} (l : List α) (k : Nat) :
    (l.zipIdx.map fun x => k + x.2) = List.range' k l.length := by
  have hmap : (l.zipIdx.map Prod.snd).map (k + ·) = List.range' (k + 0) l.length := by
    rw [List.zipIdx_map_snd, List.map_add_range']
  rwa [List.map_map] at hmap

theorem mem_dotGeneral : a ∈ assignments (.dotGeneral d lhs rhs result) ↔
    (∃ i l r : Nat, d.lhsBatch[i]? = some l ∧ d.rhsBatch[i]? = some r ∧
      a = ofLists [some l, some r] [some i] ⟨lhs.getD l 1, .passThrough, false⟩) ∨
    (∃ i l : Nat, (d.lhsFree lhs)[i]? = some l ∧
      a = ofLists [some l, none] [some (d.lhsBatch.length + i)]
        ⟨lhs.getD l 1, .passThrough, false⟩) ∨
    (∃ i r : Nat, (d.rhsFree rhs)[i]? = some r ∧
      a = ofLists [none, some r] [some (d.lhsBatch.length + (d.lhsFree lhs).length + i)]
        ⟨rhs.getD r 1, .passThrough, false⟩) ∨
    ∃ i l r : Nat, d.lhsContract[i]? = some l ∧ d.rhsContract[i]? = some r ∧
      a = ofLists [some l, some r] [none] ⟨lhs.getD l 1, .reduction, false⟩ := by
  simp only [assignments, RuleFactory.dotFactors, List.map_append, List.mem_append, or_assoc,
    List.mapIdx_eq_zipIdx_map, List.map_map, List.mem_map, Prod.exists,
    List.mem_zipIdx_iff_getElem?, List.getElem?_zip_eq_some]
  refine or_congr ?_ (or_congr ?_ (or_congr ?_ ?_))
  · exact ⟨fun ⟨l, r, i, ⟨hl, hr⟩, ha⟩ => ⟨i, l, r, hl, hr, ha.symm⟩,
      fun ⟨i, l, r, hl, hr, ha⟩ => ⟨l, r, i, ⟨hl, hr⟩, ha.symm⟩⟩
  · exact ⟨fun ⟨l, i, hl, ha⟩ => ⟨i, l, hl, ha.symm⟩, fun ⟨i, l, hl, ha⟩ => ⟨l, i, hl, ha.symm⟩⟩
  · exact ⟨fun ⟨r, i, hr, ha⟩ => ⟨i, r, hr, ha.symm⟩, fun ⟨i, r, hr, ha⟩ => ⟨r, i, hr, ha.symm⟩⟩
  · refine ⟨fun ⟨l, r, hmem, ha⟩ => ?_, fun ⟨i, l, r, hl, hr, ha⟩ => ⟨l, r, ?_, ha.symm⟩⟩
    · obtain ⟨i, hi⟩ := List.mem_iff_getElem?.1 hmem
      obtain ⟨hl, hr⟩ := List.getElem?_zip_eq_some.1 hi
      exact ⟨i, l, r, hl, hr, ha.symm⟩
    · exact List.mem_of_getElem? (List.getElem?_zip_eq_some.2 ⟨hl, hr⟩)

variable (hb : d.lhsBatch.length = d.rhsBatch.length)
  (hc : d.lhsContract.length = d.rhsContract.length)

include hb hc in
theorem filterMap_lhs :
    (assignments (.dotGeneral d lhs rhs result)).filterMap (·.dim? ⟨.operand, 0⟩)
      = d.lhsBatch ++ d.lhsFree lhs ++ d.lhsContract := by
  simp [assignments, RuleFactory.dotFactors, List.mapIdx_eq_zipIdx_map, ofLists, List.filterMap_map,
    Function.comp_def, map_fst_zipIdx, List.map_fst_zip, hb, hc]

include hb hc in
theorem filterMap_rhs :
    (assignments (.dotGeneral d lhs rhs result)).filterMap (·.dim? ⟨.operand, 1⟩)
      = d.rhsBatch ++ d.rhsFree rhs ++ d.rhsContract := by
  simp [assignments, RuleFactory.dotFactors, List.mapIdx_eq_zipIdx_map, ofLists, List.filterMap_map,
    Function.comp_def, map_fst_zipIdx, List.map_snd_zip, hb, hc]

include hb in
theorem filterMap_result :
    (assignments (.dotGeneral d lhs rhs result)).filterMap (·.dim? ⟨.result, 0⟩)
      = List.range (d.lhsBatch.length + (d.lhsFree lhs).length + (d.rhsFree rhs).length) := by
  simp [assignments, RuleFactory.dotFactors, List.mapIdx_eq_zipIdx_map, ofLists, List.filterMap_map,
    Function.comp_def, map_snd_zipIdx, hb]
  have happend := @List.range'_append_1 0 d.rhsBatch.length
    ((d.lhsFree lhs).length + (d.rhsFree rhs).length)
  rw [Nat.zero_add] at happend
  rw [Nat.add_assoc, List.range_eq_range', happend]

theorem size?_cases_dotGeneral
    (h : (⟨[lhs, rhs], [result]⟩ : Signature).size? p = some size) :
    (p = .operand 0 p.dim ∧ lhs[p.dim]? = some size) ∨
      (p = .operand 1 p.dim ∧ rhs[p.dim]? = some size) ∨
        (p = .result 0 p.dim ∧ result[p.dim]? = some size) := by
  rcases Signature.size?_cases h with ⟨i, shape, hshape, hp, hsize⟩ | hresult
  · match i with
    | 0 =>
      cases hshape
      exact .inl ⟨hp, hsize⟩
    | 1 =>
      cases hshape
      exact .inr (.inl ⟨hp, hsize⟩)
  · exact .inr (.inr hresult)

theorem names_batch {l r i : Nat} {f : Factor} :
    (ofLists [some l, some r] [some i] f).dim? p.tensor = some p.dim ↔
      p ∈ ({.operand 0 l, .operand 1 r, .result 0 i} : Set TensorDim) := by
  rw [names_binary]
  simp

theorem names_lhsFree {l i : Nat} {f : Factor} :
    (ofLists [some l, none] [some i] f).dim? p.tensor = some p.dim ↔
      p ∈ ({.operand 0 l, .result 0 i} : Set TensorDim) := by
  rw [names_binary]
  simp

theorem names_rhsFree {r i : Nat} {f : Factor} :
    (ofLists [none, some r] [some i] f).dim? p.tensor = some p.dim ↔
      p ∈ ({.operand 1 r, .result 0 i} : Set TensorDim) := by
  rw [names_binary]
  simp

theorem names_contract {l r : Nat} {f : Factor} :
    (ofLists [some l, some r] [none] f).dim? p.tensor = some p.dim ↔
      p ∈ ({.operand 0 l, .operand 1 r} : Set TensorDim) := by
  rw [names_binary]
  simp

/-- The sizes of the result are those of the batches, then of the free dimensions. -/
theorem sizes_dotGeneral {i : Nat} (hsize : result[i]? = some size)
    (h : result.map some = d.lhsBatch.map (lhs[·]?) ++ (d.lhsFree lhs).map (lhs[·]?)
      ++ (d.rhsFree rhs).map (rhs[·]?)) :
    (∀ l : Nat, d.lhsBatch[i]? = some l → lhs[l]? = some size) ∧
    (∀ k l : Nat, i = d.lhsBatch.length + k → (d.lhsFree lhs)[k]? = some l → lhs[l]? = some size) ∧
    ∀ k r : Nat, i = d.lhsBatch.length + (d.lhsFree lhs).length + k →
      (d.rhsFree rhs)[k]? = some r → rhs[r]? = some size := by
  rw [getElem?_eq_some_iff_of_map h, List.append_assoc] at hsize
  have hlt : ∀ {l : List Nat} {k x : Nat}, l[k]? = some x → k < l.length := fun hx =>
    (List.getElem?_eq_some_iff.1 hx).1
  refine ⟨fun l hl => ?_, fun k l hi hl => ?_, fun k r hi hr => ?_⟩
  · rw [List.getElem?_append_left (by simpa using hlt hl), List.getElem?_map, hl] at hsize
    exact Option.some.inj hsize
  · subst hi
    rw [List.getElem?_append_right (by simp), List.length_map, Nat.add_sub_cancel_left,
      List.getElem?_append_left (by simpa using hlt hl), List.getElem?_map, hl] at hsize
    exact Option.some.inj hsize
  · subst hi
    rw [List.getElem?_append_right (by simp; omega), List.length_map, Nat.add_assoc,
      Nat.add_sub_cancel_left, List.getElem?_append_right (by simp), List.length_map,
      Nat.add_sub_cancel_left, List.getElem?_map, hr] at hsize
    exact Option.some.inj hsize

theorem apart_dotGeneral (h : WellFormed (.dotGeneral d lhs rhs result)) :
    Apart (assignments (.dotGeneral d lhs rhs result)) := by
  cases h with | dotGeneral lhsNodup rhsNodup lhsBelow rhsBelow batch contract sizes =>
  have hb := by simpa using congrArg List.length batch
  have hc := by simpa using congrArg List.length contract
  -- no other tensor is named
  have hnone : ∀ a ∈ assignments (.dotGeneral d lhs rhs result), ∀ n,
      a.dim? ⟨.operand, n + 2⟩ = none ∧ a.dim? ⟨.result, n + 1⟩ = none := by
    intro a ha n
    rcases mem_dotGeneral.1 ha with ⟨i, l, r, -, -, rfl⟩ | ⟨i, l, -, rfl⟩ | ⟨i, r, -, rfl⟩ |
      ⟨i, l, r, -, -, rfl⟩ <;> exact ⟨rfl, rfl⟩
  refine apart_iff.2 fun ⟨side, index⟩ => ?_
  match side, index with
  | .operand, 0 =>
    exact filterMap_lhs hb hc ▸ (free_perm lhsNodup lhsBelow).nodup_iff.2 List.nodup_range
  | .operand, 1 =>
    exact filterMap_rhs hb hc ▸ (free_perm rhsNodup rhsBelow).nodup_iff.2 List.nodup_range
  | .result, 0 => exact filterMap_result hb ▸ List.nodup_range
  | .operand, n + 2 =>
    rw [List.filterMap_eq_nil_iff.2 fun a ha => (hnone a ha n).1]
    exact .nil
  | .result, n + 1 =>
    rw [List.filterMap_eq_nil_iff.2 fun a ha => (hnone a ha n).2]
    exact .nil

theorem size_eq_of_mem_dotGeneral (h : WellFormed (.dotGeneral d lhs rhs result))
    (ha : a ∈ assignments (.dotGeneral d lhs rhs result))
    (hp : (signature (.dotGeneral d lhs rhs result)).size? p = some size)
    (hnames : a.dim? p.tensor = some p.dim) : a.factor.size = size := by
  cases h with | dotGeneral lhsNodup rhsNodup lhsBelow rhsBelow batch contract sizes =>
  have hgetD : ∀ {shape : Shape} {dim : Nat}, shape[dim]? = some size →
      shape.getD dim 1 = size := fun hdim => by
    rw [List.getD_eq_getElem?_getD, hdim, Option.getD_some]
  have hpaired : ∀ {ls rs : List Nat}, ls.map (lhs[·]?) = rs.map (rhs[·]?) →
      ∀ {i l r : Nat}, ls[i]? = some l → rs[i]? = some r → lhs[l]? = rhs[r]? := by
    intro ls rs heq i l r hl hr
    have hi := congrArg (·[i]?) heq
    simpa only [List.getElem?_map, hl, hr, Option.map_some, Option.some.injEq] using hi
  rcases mem_dotGeneral.1 ha with ⟨i, l, r, hl, hr, rfl⟩ | ⟨i, l, hl, rfl⟩ | ⟨i, r, hr, rfl⟩ |
    ⟨i, l, r, hl, hr, rfl⟩
  · rcases names_batch.1 hnames with rfl | rfl | rfl
    · exact hgetD hp
    · exact hgetD ((hpaired batch hl hr).trans hp)
    · exact hgetD ((sizes_dotGeneral hp sizes).1 l hl)
  · rcases names_lhsFree.1 hnames with rfl | rfl
    · exact hgetD hp
    · exact hgetD ((sizes_dotGeneral hp sizes).2.1 i l rfl hl)
  · rcases names_rhsFree.1 hnames with rfl | rfl
    · exact hgetD hp
    · exact hgetD ((sizes_dotGeneral hp sizes).2.2 i r rfl hr)
  · rcases names_contract.1 hnames with rfl | rfl
    · exact hgetD hp
    · exact hgetD ((hpaired contract hl hr).trans hp)

theorem exists_names_dotGeneral (h : WellFormed (.dotGeneral d lhs rhs result))
    (hp : (signature (.dotGeneral d lhs rhs result)).size? p = some size) :
    ∃ a ∈ assignments (.dotGeneral d lhs rhs result), a.dim? p.tensor = some p.dim := by
  cases h with | dotGeneral lhsNodup rhsNodup lhsBelow rhsBelow batch contract sizes =>
  have hb := by simpa using congrArg List.length batch
  have hc := by simpa using congrArg List.length contract
  have hrange : ∀ {shape : Shape}, shape[p.dim]? = some size → p.dim ∈ List.range shape.length :=
    fun h => List.mem_range.2 (List.getElem?_eq_some_iff.1 h).1
  have hnamed : ∀ {t : TensorRef},
      p.dim ∈ (assignments (.dotGeneral d lhs rhs result)).filterMap (·.dim? t) →
        p.tensor = t → ∃ a ∈ assignments (.dotGeneral d lhs rhs result),
          a.dim? p.tensor = some p.dim := by
    rintro t hmem rfl
    exact List.mem_filterMap.1 hmem
  rcases size?_cases_dotGeneral hp with ⟨hplace, hsize⟩ | ⟨hplace, hsize⟩ | ⟨hplace, hsize⟩
  · have hmem := (free_perm lhsNodup lhsBelow).mem_iff.2 (hrange hsize)
    exact hnamed (filterMap_lhs hb hc ▸ hmem) (congrArg TensorDim.tensor hplace)
  · have hmem := (free_perm rhsNodup rhsBelow).mem_iff.2 (hrange hsize)
    exact hnamed (filterMap_rhs hb hc ▸ hmem) (congrArg TensorDim.tensor hplace)
  · have hlength := congrArg List.length sizes
    simp only [List.length_map, List.length_append] at hlength
    exact hnamed (filterMap_result hb ▸ hlength ▸ hrange hsize) (congrArg TensorDim.tensor hplace)

theorem fit_dotGeneral (h : WellFormed (.dotGeneral d lhs rhs result)) :
    Fit (signature (.dotGeneral d lhs rhs result))
      (assignments (.dotGeneral d lhs rhs result)) :=
  ⟨apart_dotGeneral h, fun _ ha _ _ hp hnames => .inl (size_eq_of_mem_dotGeneral h ha hp hnames),
    fun _ _ hp _ => exists_names_dotGeneral h hp⟩

theorem joins_dotGeneral : Joins (assignments (.dotGeneral d lhs rhs result)) p q ↔
    ∃ g, Linked (.dotGeneral d lhs rhs result) g ∧ p ∈ g ∧ q ∈ g := by
  constructor
  · rintro ⟨a, ha, hp, hq⟩
    rcases mem_dotGeneral.1 ha with ⟨i, l, r, hl, hr, rfl⟩ | ⟨i, l, hl, rfl⟩ | ⟨i, r, hr, rfl⟩ |
      ⟨i, l, r, hl, hr, rfl⟩
    · exact ⟨_, .batch hl hr, names_batch.1 hp, names_batch.1 hq⟩
    · exact ⟨_, .lhsFree hl, names_lhsFree.1 hp, names_lhsFree.1 hq⟩
    · exact ⟨_, .rhsFree hr, names_rhsFree.1 hp, names_rhsFree.1 hq⟩
    · exact ⟨_, .contract hl hr, names_contract.1 hp, names_contract.1 hq⟩
  · rintro ⟨g, hg, hp, hq⟩
    cases hg with
    | batch hl hr =>
      exact ⟨_, mem_dotGeneral.2 (.inl ⟨_, _, _, hl, hr, rfl⟩), names_batch.2 hp, names_batch.2 hq⟩
    | lhsFree hl =>
      exact ⟨_, mem_dotGeneral.2 (.inr (.inl ⟨_, _, hl, rfl⟩)), names_lhsFree.2 hp,
        names_lhsFree.2 hq⟩
    | rhsFree hr =>
      exact ⟨_, mem_dotGeneral.2 (.inr (.inr (.inl ⟨_, _, hr, rfl⟩))), names_rhsFree.2 hp,
        names_rhsFree.2 hq⟩
    | contract hl hr =>
      exact ⟨_, mem_dotGeneral.2 (.inr (.inr (.inr ⟨_, _, _, hl, hr, rfl⟩))), names_contract.2 hp,
        names_contract.2 hq⟩

end dotGeneral

variable {op : Primitive} {attrs : Attributes}

theorem fit_assignments (h : op.WellFormed) : Fit op.signature op.assignments := by
  cases op with
  | elementwise => exact (positioned_elementwise h).fit
  | broadcastInDim => exact fit_broadcastInDim h
  | transpose => exact fit_transpose h
  | dotGeneral => exact fit_dotGeneral h
  | reduce => exact fit_reduce h
  | concatenate => exact (positioned_concatenate h).fit
  | slice => exact (positioned_slice h).fit
  | pad => exact (positioned_pad h).fit

theorem joins_iff {size' : Nat} (h : op.WellFormed) (hp : op.signature.size? p = some size)
    (hq : op.signature.size? q = some size') (hne : p.tensor ≠ q.tensor) :
    Joins op.assignments p q ↔ ∃ g, op.Linked g ∧ p ∈ g ∧ q ∈ g := by
  cases op with
  | broadcastInDim => exact joins_broadcastInDim h hne
  | transpose => exact joins_transpose hne
  | dotGeneral => exact joins_dotGeneral
  | reduce => exact joins_reduce hp hq
  | elementwise =>
    refine ((positioned_elementwise h).joins_iff hp).trans (linked_positional_iff fun g => ?_).symm
    exact ⟨fun hg => by cases hg with | elementwise dim => exact ⟨dim, rfl⟩,
      fun ⟨dim, hg⟩ => hg ▸ .elementwise dim⟩
  | concatenate =>
    refine ((positioned_concatenate h).joins_iff hp).trans (linked_positional_iff fun g => ?_).symm
    exact ⟨fun hg => by cases hg with | concatenate dim => exact ⟨dim, rfl⟩,
      fun ⟨dim, hg⟩ => hg ▸ .concatenate dim⟩
  | slice =>
    refine ((positioned_slice h).joins_iff hp).trans (linked_positional_iff fun g => ?_).symm
    exact ⟨fun hg => by cases hg with | slice dim => exact ⟨dim, rfl⟩,
      fun ⟨dim, hg⟩ => hg ▸ .slice dim⟩
  | pad =>
    refine ((positioned_pad h).joins_iff hp).trans (linked_positional_iff fun g => ?_).symm
    exact ⟨fun hg => by cases hg with | pad dim => exact ⟨dim, rfl⟩,
      fun ⟨dim, hg⟩ => hg ▸ .pad dim⟩

/-- An operation whose attributes and shapes fit together has a rule, in which dimensions of
different tensors share a factor exactly if the operation links them. -/
theorem exists_ruleFor_share_iff (h : op.WellFormed) (hreads : op.Reads attrs) :
    ∃ r, Catalogue.builtin.ruleFor op.name attrs op.signature = .ok r ∧
      ∀ (p q : TensorDim) (size size' : Nat), op.signature.size? p = some size →
        op.signature.size? q = some size' → p.tensor ≠ q.tensor →
          (r.Share p q ↔ ∃ g, op.Linked g ∧ p ∈ g ∧ q ∈ g) := by
  have hfit := fit_assignments h
  refine ⟨(ofAssignments op.signature op.assignments).finish, ?_,
    fun p q size size' hp hq hne => ?_⟩
  · rw [Catalogue.ruleFor, Catalogue.propose, find?_name h]
    dsimp only
    rw [factory_eq_ok h hreads]
    simp only [bind, Except.bind, hfit.verify]
    rfl
  · exact (share_ofAssignments_iff hfit.apart hp hq hne).trans (joins_iff h hp hq hne)

/-- A product over a batch and a contracted dimension. -/
theorem exists_ruleFor_share_iff_dotGeneral :
    let op : Primitive := .dotGeneral ⟨[0], [0], [2], [1]⟩ [2, 3, 4] [2, 4, 5] [2, 3, 5]
    let attrs : Attributes := [("lhs_batching_dimensions", .ints [0]),
      ("lhs_contracting_dimensions", .ints [2]), ("rhs_batching_dimensions", .ints [0]),
      ("rhs_contracting_dimensions", .ints [1])]
    op.WellFormed ∧ op.Reads attrs ∧
      ∃ r, Catalogue.builtin.ruleFor "stablehlo.dot_general" attrs
          ⟨[[2, 3, 4], [2, 4, 5]], [[2, 3, 5]]⟩ = .ok r ∧
        r.Share (.operand 0 2) (.operand 1 1) ∧ r.Share (.operand 1 2) (.result 0 2) := by
  intro op attrs
  have h : op.WellFormed := .dotGeneral (by decide) (by decide) (by decide) (by decide)
    (by decide) (by decide) (by decide)
  have hreads : op.Reads attrs := by
    show RuleFactory.DotDims.ofAttributes attrs = .ok ⟨[0], [0], [2], [1]⟩
    decide +kernel
  refine ⟨h, hreads, ?_⟩
  obtain ⟨r, hr, hshare⟩ := exists_ruleFor_share_iff h hreads
  refine ⟨r, hr, ?_, ?_⟩
  · refine (hshare _ _ 4 4 rfl rfl (by decide)).2 ⟨_, .contract (i := 0) rfl rfl, ?_, ?_⟩
    · exact .inl rfl
    · exact .inr rfl
  · refine (hshare _ _ 5 5 rfl rfl (by decide)).2 ⟨_, .rhsFree (i := 0) rfl, ?_, ?_⟩
    · exact .inl rfl
    · exact .inr rfl

end Primitive
end MeshSharding
