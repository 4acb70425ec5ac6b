import Mathlib.Data.Set.Insert
import MeshSharding.Proofs.Propagation.Projection
import MeshSharding.Proofs.Rule.Assignment
import MeshSharding.Rule.Catalogue

/-! The operations of the catalogue with attributes and shapes that fit together, and the dimensions
that each of them links. The factory of an operation assigns each factor once. -/
namespace List

/-- In a list without duplicates each element is where it is found. -/
theorem Nodup.idxOf?_eq_some_iff {α : Type} [DecidableEq α] {l : List α} (h : l.Nodup) {a : α}
    {i : Nat} : l.idxOf? a = some i ↔ l[i]? = some a := by
  rw [List.idxOf?_eq_some_iff, List.getElem?_eq_some_iff]
  refine ⟨fun ⟨hlt, ha, _⟩ => ⟨hlt, ha⟩, fun ⟨hlt, ha⟩ => ⟨hlt, ha, fun j hj heq => ?_⟩⟩
  exact Nat.ne_of_lt hj (h.getElem_inj_iff.1 (heq.trans ha.symm))

end List

namespace MeshSharding

open RuleFactory (DotDims)

namespace TensorDim

def operand (index dim : Nat) : TensorDim := ⟨⟨.operand, index⟩, dim⟩

def result (index dim : Nat) : TensorDim := ⟨⟨.result, index⟩, dim⟩

end TensorDim

/-- The dimensions of an input that a reduction keeps. -/
def keptDims (reduced : List Nat) (input : Shape) : List Nat :=
  (List.range input.length).filter (· ∉ reduced)

/-- An operation with a rule of its own, up to reshapes and the operations for shardings. -/
inductive Primitive
  | elementwise (name : String) (operands : List Shape) (result : Shape)
  | broadcastInDim (dims : List Nat) (operand result : Shape)
  | transpose (permutation : List Nat) (operand result : Shape)
  | dotGeneral (dims : DotDims) (lhs rhs result : Shape)
  | reduce (reduced : List Nat) (count : Nat) (input result : Shape)
  | concatenate (dim : Nat) (operands : List Shape) (result : Shape)
  | slice (operand result : Shape)
  | pad (operand result : Shape)

namespace Primitive

def name : Primitive → String
  | elementwise name _ _ => name
  | broadcastInDim _ _ _ => "stablehlo.broadcast_in_dim"
  | transpose _ _ _ => "stablehlo.transpose"
  | dotGeneral _ _ _ _ => "stablehlo.dot_general"
  | reduce _ _ _ _ => "stablehlo.reduce"
  | concatenate _ _ _ => "stablehlo.concatenate"
  | slice _ _ => "stablehlo.slice"
  | pad _ _ => "stablehlo.pad"

/-- Behind the inputs of a reduction are as many scalars, and behind the operand of a pad is the
scalar to pad with. -/
def signature : Primitive → Signature
  | elementwise _ operands result => ⟨operands, [result]⟩
  | broadcastInDim _ operand result => ⟨[operand], [result]⟩
  | transpose _ operand result => ⟨[operand], [result]⟩
  | dotGeneral _ lhs rhs result => ⟨[lhs, rhs], [result]⟩
  | reduce _ count input result =>
    ⟨List.replicate count input ++ List.replicate count [], List.replicate count result⟩
  | concatenate _ operands result => ⟨operands, [result]⟩
  | slice operand result => ⟨[operand], [result]⟩
  | pad operand result => ⟨[operand, []], [result]⟩

/-- The attributes have the dimensions of the operation. -/
def Reads (attrs : Attributes) : Primitive → Prop
  | broadcastInDim dims _ _ => attrs.dimensions "broadcast_dimensions" = .ok dims
  | transpose permutation _ _ => attrs.dimensions "permutation" = .ok permutation
  | dotGeneral dims _ _ _ => DotDims.ofAttributes attrs = .ok dims
  | reduce reduced _ _ _ => attrs.dimensions "dimensions" = .ok reduced
  | concatenate dim _ _ => attrs.dimension "dimension" = .ok dim
  | elementwise _ _ _ | slice _ _ | pad _ _ => True

/-- The dimensions and the shapes fit together. -/
inductive WellFormed : Primitive → Prop
  | elementwise {name operands result} (named : name ∈ Catalogue.elementwise)
      (shapes : ∀ operand ∈ operands, operand = result ∨ operand = []) :
      WellFormed (.elementwise name operands result)
  | broadcastInDim {dims operand result} (nodup : dims.Nodup)
      (rank : dims.length = operand.length) (below : ∀ dim ∈ dims, dim < result.length)
      (sizes : ∀ i dim size : Nat, dims[i]? = some dim → operand[i]? = some size →
        size = 1 ∨ result[dim]? = some size) :
      WellFormed (.broadcastInDim dims operand result)
  | transpose {permutation operand result} (perm : permutation.Perm (List.range operand.length))
      (sizes : result.map some = permutation.map fun dim => operand[dim]?) :
      WellFormed (.transpose permutation operand result)
  | dotGeneral {dims lhs rhs result} (lhsNodup : (dims.lhsBatch ++ dims.lhsContract).Nodup)
      (rhsNodup : (dims.rhsBatch ++ dims.rhsContract).Nodup)
      (lhsBelow : ∀ dim ∈ dims.lhsBatch ++ dims.lhsContract, dim < lhs.length)
      (rhsBelow : ∀ dim ∈ dims.rhsBatch ++ dims.rhsContract, dim < rhs.length)
      (batch : dims.lhsBatch.map (lhs[·]?) = dims.rhsBatch.map (rhs[·]?))
      (contract : dims.lhsContract.map (lhs[·]?) = dims.rhsContract.map (rhs[·]?))
      (sizes : result.map some = dims.lhsBatch.map (lhs[·]?) ++ (dims.lhsFree lhs).map (lhs[·]?)
        ++ (dims.rhsFree rhs).map (rhs[·]?)) :
      WellFormed (.dotGeneral dims lhs rhs result)
  | reduce {reduced count input result} (pos : 0 < count)
      (sizes : result.map some = (keptDims reduced input).map (input[·]?)) :
      WellFormed (.reduce reduced count input result)
  | concatenate {dim operands result} (nonempty : operands ≠ []) (below : dim < result.length)
      (rank : ∀ operand ∈ operands, operand.length = result.length)
      (sizes : ∀ operand ∈ operands, ∀ i, i ≠ dim → operand[i]? = result[i]?) :
      WellFormed (.concatenate dim operands result)
  | slice {operand result} (rank : operand.length = result.length) :
      WellFormed (.slice operand result)
  | pad {operand result} (rank : operand.length = result.length) :
      WellFormed (.pad operand result)

/-- The operation keeps the dimensions of the set together. -/
inductive Linked : Primitive → Set TensorDim → Prop
  | elementwise {name operands result} (dim : Nat) :
      Linked (.elementwise name operands result) {p | p.dim = dim}
  | broadcastInDim {dims operand result} {i dim size : Nat} (broadcast : dims[i]? = some dim)
      (operandSize : operand[i]? = some size) (resultSize : result[dim]? = some size) :
      Linked (.broadcastInDim dims operand result) {.operand 0 i, .result 0 dim}
  | transpose {permutation operand result} {i dim : Nat} (permuted : permutation[i]? = some dim) :
      Linked (.transpose permutation operand result) {.operand 0 dim, .result 0 i}
  | batch {dims lhs rhs result} {i l r : Nat} (left : dims.lhsBatch[i]? = some l)
      (right : dims.rhsBatch[i]? = some r) :
      Linked (.dotGeneral dims lhs rhs result) {.operand 0 l, .operand 1 r, .result 0 i}
  | lhsFree {dims lhs rhs result} {i l : Nat} (free : (dims.lhsFree lhs)[i]? = some l) :
      Linked (.dotGeneral dims lhs rhs result)
        {.operand 0 l, .result 0 (dims.lhsBatch.length + i)}
  | rhsFree {dims lhs rhs result} {i r : Nat} (free : (dims.rhsFree rhs)[i]? = some r) :
      Linked (.dotGeneral dims lhs rhs result)
        {.operand 1 r, .result 0 (dims.lhsBatch.length + (dims.lhsFree lhs).length + i)}
  | contract {dims lhs rhs result} {i l r : Nat} (left : dims.lhsContract[i]? = some l)
      (right : dims.rhsContract[i]? = some r) :
      Linked (.dotGeneral dims lhs rhs result) {.operand 0 l, .operand 1 r}
  | reduced {reduced count input result} {dim : Nat} (mem : dim ∈ reduced) :
      Linked (.reduce reduced count input result) {p | p.tensor.side = .operand ∧ p.dim = dim}
  | kept {reduced count input result} {i dim : Nat}
      (kept : (keptDims reduced input)[i]? = some dim) :
      Linked (.reduce reduced count input result)
        {p | p.tensor.side = .operand ∧ p.dim = dim ∨ p.tensor.side = .result ∧ p.dim = i}
  | concatenate {along operands result} (dim : Nat) :
      Linked (.concatenate along operands result) {p | p.dim = dim}
  | slice {operand result} (dim : Nat) : Linked (.slice operand result) {p | p.dim = dim}
  | pad {operand result} (dim : Nat) : Linked (.pad operand result) {p | p.dim = dim}

def factory : Primitive → RuleFactory
  | elementwise _ _ _ => RuleFactory.pointwise
  | broadcastInDim _ _ _ => RuleFactory.broadcastInDim
  | transpose _ _ _ => RuleFactory.transpose
  | dotGeneral _ _ _ _ => RuleFactory.dotGeneral
  | reduce _ _ _ _ => RuleFactory.reduce
  | concatenate _ _ _ => RuleFactory.concatenate
  | slice _ _ | pad _ _ => RuleFactory.padOrSlice

variable {op : Primitive} {attrs : Attributes}

theorem find?_name (h : op.WellFormed) :
    Sorted.find? op.name Catalogue.builtin = some op.factory := by
  rw [Catalogue.builtin, Sorted.find?_ofEntries (by decide +kernel)]
  cases h with
  | elementwise named =>
    refine Sorted.find?_eq_some (by decide +kernel) (List.mem_append_left _ ?_)
    exact List.mem_map_of_mem (f := fun name => (name, RuleFactory.pointwise)) named
  | _ => rfl

open Assignment

/-- The factor of a dimension of the inputs of a reduction. -/
def reduceAssignment (reduced : List Nat) (count : Nat) (input : Shape) (x : Nat × Nat) :
    Assignment where
  dim? t := match t.side with
    | .operand => if t.index < count then some x.2 else none
    | .result => (keptDims reduced input).idxOf? x.2
  factor := ⟨x.1, if x.2 ∈ reduced then .reduction else .passThrough, false⟩

def assignments : Primitive → List Assignment
  | elementwise _ _ result => positional result fun _ _ => (.passThrough, false)
  | broadcastInDim dims operand result => result.zipIdx.map fun x =>
    ofLists [(dims.idxOf? x.2).filter fun dim => operand[dim]? = some x.1] [some x.2]
      ⟨x.1, .passThrough, false⟩
  | transpose permutation operand _ => permutation.zipIdx.map fun x =>
    ofLists [some x.1] [some x.2] ⟨operand.getD x.1 1, .passThrough, false⟩
  | dotGeneral dims lhs rhs _ =>
    (RuleFactory.dotFactors dims lhs rhs).map fun f => ofLists f.1 f.2.1 f.2.2
  | reduce reduced count input _ => input.zipIdx.map (reduceAssignment reduced count input)
  | concatenate along _ result => positional result fun dim _ =>
    (if dim = along then .permutation else .passThrough, false)
  | slice operand result | pad operand result => positional operand fun dim size =>
    if result[dim]? = some size then (.passThrough, false) else (.permutation, true)

end Primitive

namespace Draft

open Assignment

theorem addPointwiseMismatch_eq (sig : Signature) (operand result : Shape) :
    (blank sig).addPointwiseMismatch operand result .permutation true
      = ofAssignments sig (positional operand fun dim size =>
          if result[dim]? = some size then (.passThrough, false) else (.permutation, true)) := by
  rw [← addDims_eq_ofAssignments, addPointwiseMismatch]
  congr 1
  funext dim size
  split <;> rfl

theorem addConcatenateDims_eq (operands : List Shape) (along : Nat) (result : Shape) :
    result.zipIdx.foldl (RuleFactory.addConcatenateDim along) (blank ⟨operands, [result]⟩)
      = ofAssignments ⟨operands, [result]⟩ (positional result fun dim _ =>
          (if dim = along then .permutation else .passThrough, false)) := by
  refine foldl_eq_ofAssignments fun d hd x _ => ?_
  refine addFactor_eq_assign (a := everywhere x.2 _) (fun i hi => ?_) fun i hi => ?_
  · rw [List.getElem?_map, List.getElem?_eq_getElem hi]
    rfl
  · -- there is a single result
    rw [hd.results.length_eq] at hi
    obtain rfl := Nat.lt_one_iff.1 hi
    rfl

section reduce

variable {reduced kept : List Nat} {count dim : Nat} {input rest : Shape}

theorem addReduceDims_eq (d : Draft)
    (h : keptDims reduced input
      = kept ++ (List.range' dim rest.length).filter (· ∉ reduced)) :
    RuleFactory.addReduceDims count reduced dim kept.length d rest
      = ((rest.zipIdx dim).map (Primitive.reduceAssignment reduced count input)).foldl
          assign d := by
  have hkept : (keptDims reduced input).Nodup := List.nodup_range.filter _
  have hinputs : ∀ dim i : Nat, (List.replicate count (some dim))[i]?.join
      = if i < count then some dim else none := by
    intro dim i
    rw [List.getElem?_replicate]
    split <;> rfl
  induction rest generalizing kept dim d with
  | nil => rfl
  | cons size rest ih =>
    rw [RuleFactory.addReduceDims, List.zipIdx_cons, List.map_cons, List.foldl_cons]
    rw [List.length_cons, List.range'_succ] at h
    have hfactor : (Primitive.reduceAssignment reduced count input (size, dim)).factor
        = ⟨size, if dim ∈ reduced then .reduction else .passThrough, false⟩ := rfl
    by_cases hdim : dim ∈ reduced
    · rw [List.filter_cons_of_neg (by simpa using hdim)] at h
      have hnone : (keptDims reduced input).idxOf? dim = none :=
        List.idxOf?_eq_none_iff.2 fun hmem => of_decide_eq_true (List.mem_filter.1 hmem).2 hdim
      have hassign : d.addFactor (List.replicate count (some dim)) [] _ = d.assign
          (Primitive.reduceAssignment reduced count input (size, dim)) :=
        addFactor_eq_assign (fun i _ => hinputs dim i) fun i _ => hnone.symm
      rw [if_pos hdim] at hfactor ⊢
      rw [← hassign, hfactor]
      exact ih _ h
    · rw [List.filter_cons_of_pos (by simpa using hdim)] at h
      have hsome : (keptDims reduced input).idxOf? dim = some kept.length := by
        rw [hkept.idxOf?_eq_some_iff, h, List.getElem?_append_right (Nat.le_refl _), Nat.sub_self]
        rfl
      have hresults : ∀ i < d.results.length, (d.results.map fun _ => some kept.length)[i]?.join
          = (keptDims reduced input).idxOf? dim := by
        intro i hi
        rw [List.getElem?_map, List.getElem?_eq_getElem hi, hsome]
        rfl
      have hassign : d.addToResults (List.replicate count (some dim)) kept.length _ = d.assign
          (Primitive.reduceAssignment reduced count input (size, dim)) :=
        addFactor_eq_assign (fun i _ => hinputs dim i) hresults
      rw [if_neg hdim] at hfactor ⊢
      rw [← hassign, hfactor]
      rw [List.append_cons] at h
      have hnext := ih (d.addToResults (List.replicate count (some dim)) kept.length
        ⟨size, .passThrough, false⟩) h
      rwa [List.length_append] at hnext

end reduce

end Draft

namespace Primitive

open Draft

variable {op : Primitive} {attrs : Attributes}

/-- Sorted, a permutation is the dimensions in order. -/
theorem mergeSort_eq_range {permutation : List Nat} {n : Nat}
    (h : permutation.Perm (List.range n)) : permutation.mergeSort = List.range n := by
  have hsorted := @List.pairwise_mergeSort _ (fun a b : Nat => decide (a ≤ b))
    (by simp; omega) (by simp; omega) permutation
  exact ((List.mergeSort_perm ..).trans h).eq_of_pairwise (by simp; omega) hsorted
    (List.pairwise_le_range.imp (by simp))

/-- The attributes and shapes are accepted, and the rule is that of the assignments. -/
theorem factory_eq_ok (h : op.WellFormed) (hreads : op.Reads attrs) :
    op.factory attrs op.signature = .ok (ofAssignments op.signature op.assignments).finish := by
  cases h with
  | elementwise => exact congrArg (fun d => Except.ok (finish d)) (addDims_eq_ofAssignments ..)
  | @broadcastInDim dims operand result nodup rank below sizes =>
    have hinvalid : ¬ (dims.length ≠ operand.length ∨
        (dims.any fun dim => result.length ≤ dim) = true) := by
      simpa [rank] using below
    simp only [factory, signature, RuleFactory.broadcastInDim]
    rw [hreads]
    simp only [bind, Except.bind]
    rw [if_neg hinvalid]
    refine congrArg (fun d => Except.ok (finish d)) (foldl_eq_ofAssignments fun d _ x _ => ?_)
    exact addFactor_eq_assign_ofLists d ..
  | @transpose permutation operand result perm sizes =>
    have hlength : permutation.length = result.length := by
      simpa using (congrArg List.length sizes).symm
    have hvalid : permutation.length = result.length ∧
        permutation.mergeSort = List.range operand.length := ⟨hlength, mergeSort_eq_range perm⟩
    simp only [factory, signature, RuleFactory.transpose]
    rw [hreads]
    simp only [bind, Except.bind]
    rw [if_pos hvalid]
    refine congrArg (fun d => Except.ok (finish d)) (foldl_eq_ofAssignments fun d _ x _ => ?_)
    exact addFactor_eq_assign_ofLists d ..
  | @dotGeneral dims lhs rhs result lhsNodup rhsNodup lhsBelow rhsBelow batch contract sizes =>
    have hbatch : dims.lhsBatch.length = dims.rhsBatch.length := by
      simpa using congrArg List.length batch
    have hcontract : dims.lhsContract.length = dims.rhsContract.length := by
      simpa using congrArg List.length contract
    have hvalid : dims.isValid lhs rhs = true := decide_eq_true
      ⟨hbatch, hcontract, List.all_eq_true.2 fun dim hdim => decide_eq_true (lhsBelow dim hdim),
        List.all_eq_true.2 fun dim hdim => decide_eq_true (rhsBelow dim hdim)⟩
    simp only [factory, signature, RuleFactory.dotGeneral]
    rw [hreads]
    simp only [bind, Except.bind]
    rw [if_pos hvalid]
    refine congrArg (fun d => Except.ok (finish d)) (foldl_eq_ofAssignments fun d _ x _ => ?_)
    exact addFactor_eq_assign_ofLists d ..
  | @reduce reduced count input result pos sizes =>
    obtain ⟨count, rfl⟩ := Nat.exists_eq_succ_of_ne_zero (Nat.ne_of_gt pos)
    have hcounts : ¬ (signature (.reduce reduced (count + 1) input result)).operands.length
        ≠ 2 * (signature (.reduce reduced (count + 1) input result)).results.length := by
      simp [signature]
      omega
    simp only [factory, RuleFactory.reduce]
    rw [if_neg hcounts]
    simp only [signature, List.replicate_succ, List.cons_append]
    rw [hreads]
    simp only [bind, Except.bind]
    refine congrArg (fun d => Except.ok (finish d)) ?_
    rw [List.length_cons, List.length_replicate]
    have hkept : keptDims reduced input
        = [] ++ (List.range' 0 input.length).filter (· ∉ reduced) := by
      rw [List.nil_append, ← List.range_eq_range']
      rfl
    exact addReduceDims_eq _ hkept
  | @concatenate dim operands result nonempty below rank sizes =>
    have hsome : ¬ operands.isEmpty = true := fun hnil => nonempty (List.isEmpty_iff.1 hnil)
    change RuleFactory.concatenate attrs ⟨operands, [result]⟩ = _
    rw [RuleFactory.concatenate, if_neg hsome]
    dsimp only
    rw [hreads]
    simp only [bind, Except.bind]
    rw [if_neg (Nat.not_le.2 below)]
    exact congrArg (fun d => Except.ok (finish d)) (addConcatenateDims_eq ..)
  | slice => exact congrArg (fun d => Except.ok (finish d)) (addPointwiseMismatch_eq ..)
  | pad => exact congrArg (fun d => Except.ok (finish d)) (addPointwiseMismatch_eq ..)

end Primitive
end MeshSharding
