import Mathlib.Data.List.Induction
import MeshSharding.Proofs.Rule.Finish

/-! Drafts that give each dimension at most one factor. In the rule of such a draft every dimension
has a single factor, which is the one assigned to it or a new one of size 1. So two tensors share
factors in the dimensions that one assignment names in both, and nowhere else. -/
namespace MeshSharding

/-- A factor with the dimension that it has in each tensor. -/
structure Assignment where
  dim? : TensorRef → Option Nat
  factor : Factor

namespace Assignment

/-- The dimensions are listed for the operands and for the results. -/
def ofLists (operandDims resultDims : List (Option Nat)) (f : Factor) : Assignment where
  dim? t := match t.side with
    | .operand => operandDims[t.index]?.join
    | .result => resultDims[t.index]?.join
  factor := f

/-- All tensors have the factor in one dimension. -/
def everywhere (dim : Nat) (f : Factor) : Assignment where
  dim? _ := some dim
  factor := f

/-- A factor for each dimension of a shape, which all tensors have in that dimension. -/
def positional (shape : Shape) (type : Nat → Nat → FactorType × Bool) : List Assignment :=
  shape.zipIdx.map fun x => everywhere x.2 ⟨x.1, (type x.2 x.1).1, (type x.2 x.1).2⟩

/-- No dimension is named twice. -/
def Apart (as : List Assignment) : Prop :=
  as.Pairwise fun a b => ∀ t dim, a.dim? t = some dim → b.dim? t ≠ some dim

/-- The number of the assignment that names a dimension. -/
def numberOf? (as : List Assignment) (p : TensorDim) : Option Nat :=
  as.findIdx? fun a => a.dim? p.tensor = some p.dim

/-- Some assignment names both dimensions. -/
def Joins (as : List Assignment) (p q : TensorDim) : Prop :=
  ∃ a ∈ as, a.dim? p.tensor = some p.dim ∧ a.dim? q.tensor = some q.dim

variable {as : List Assignment} {a : Assignment} {p : TensorDim} {k : Nat}

theorem numberOf?_concat (as : List Assignment) (a : Assignment) (p : TensorDim) :
    numberOf? (as ++ [a]) p
      = (numberOf? as p).or (if a.dim? p.tensor = some p.dim then some as.length else none) := by
  rw [numberOf?, List.findIdx?_append, List.findIdx?_singleton, numberOf?]
  split <;> rename_i h
  · rw [if_pos (of_decide_eq_true h)]
    simp
  · rw [if_neg (by simpa using h)]
    rfl

theorem numberOf?_eq_none : numberOf? as p = none ↔ ∀ a ∈ as, a.dim? p.tensor ≠ some p.dim := by
  simp [numberOf?, List.findIdx?_eq_none_iff]

theorem exists_of_numberOf? (h : numberOf? as p = some k) :
    ∃ a, as[k]? = some a ∧ a.dim? p.tensor = some p.dim := by
  rw [numberOf?, List.findIdx?_eq_some_iff_getElem] at h
  obtain ⟨hlt, hnames, -⟩ := h
  exact ⟨as[k], List.getElem?_eq_getElem hlt, of_decide_eq_true hnames⟩

/-- A dimension is named by one assignment only. -/
theorem Apart.numberOf?_eq (h : Apart as) (ha : as[k]? = some a)
    (hp : a.dim? p.tensor = some p.dim) : numberOf? as p = some k := by
  cases hk : numberOf? as p with
  | none => exact absurd hp (numberOf?_eq_none.1 hk a (List.mem_of_getElem? ha))
  | some j =>
    obtain ⟨b, hb, hbp⟩ := exists_of_numberOf? hk
    obtain ⟨hlt, rfl⟩ := List.getElem?_eq_some_iff.1 ha
    obtain ⟨hltj, rfl⟩ := List.getElem?_eq_some_iff.1 hb
    have hapart := List.pairwise_iff_getElem.1 h
    rcases Nat.lt_trichotomy j k with hjk | rfl | hkj
    · exact absurd hp (hapart j k hltj hlt hjk _ _ hbp)
    · rfl
    · exact absurd hbp (hapart k j hlt hltj hkj _ _ hp)

/-- Each tensor has its dimensions once. -/
theorem apart_iff : Apart as ↔ ∀ t, (as.filterMap (·.dim? t)).Nodup := by
  simp only [List.Nodup, List.pairwise_filterMap]
  refine ⟨fun h t => h.imp fun hab dim ha dim' hb heq => hab t dim ha (hb.trans (heq ▸ rfl)),
    fun h => ?_⟩
  have hall := fun t => List.pairwise_iff_getElem.1 (h t)
  exact List.pairwise_iff_getElem.2 fun i j hi hj hlt t dim ha hb =>
    hall t i j hi hj hlt dim ha dim hb rfl

/-- Assignments for the entries of a list are apart if no dimension is named for two entries. -/
theorem apart_zipIdx {α : Type} {l : List α} {g : α × Nat → Assignment}
    (h : ∀ i j x y t dim, l[i]? = some x → l[j]? = some y → (g (x, i)).dim? t = some dim →
      (g (y, j)).dim? t = some dim → i = j) : Apart (l.zipIdx.map g) := by
  refine List.pairwise_iff_getElem.2 fun i j hi hj hlt t dim hx hy => ?_
  rw [List.getElem_map, List.getElem_zipIdx, Nat.zero_add] at hx hy
  exact Nat.ne_of_lt hlt
    (h i j _ _ t dim (List.getElem?_eq_getElem _) (List.getElem?_eq_getElem _) hx hy)

theorem mem_map_zipIdx {α : Type} {l : List α} {g : α × Nat → Assignment} :
    a ∈ l.zipIdx.map g ↔ ∃ (i : Nat) (x : α), l[i]? = some x ∧ g (x, i) = a := by
  simp only [List.mem_map, Prod.exists, List.mem_zipIdx_iff_getElem?]
  exact exists_comm

end Assignment

namespace Rule

/-- The factors of a dimension. -/
def factorsAt (r : Rule) (p : TensorDim) : List Nat :=
  ((r.mapping? p.tensor).bind fun mapping => mapping.dims[p.dim]?).getD []

theorem factorsAt_eq {r : Rule} {p : TensorDim} {mapping : Mapping} {fs : List Nat}
    (hm : r.mapping? p.tensor = some mapping) (hfs : mapping.dims[p.dim]? = some fs) :
    r.factorsAt p = fs := by
  rw [factorsAt, hm, Option.bind_some, hfs, Option.getD_some]

/-- Two dimensions have a factor in common. -/
def Share (r : Rule) (p q : TensorDim) : Prop := ∃ f ∈ r.factorsAt p, f ∈ r.factorsAt q

instance (r : Rule) (p q : TensorDim) : Decidable (r.Share p q) :=
  inferInstanceAs (Decidable (∃ f ∈ r.factorsAt p, f ∈ r.factorsAt q))

end Rule

namespace Draft

open Mapping Assignment

section placeIn

variable {k size : Nat}

theorem placeIn_nil (k size : Nat) (ms : List Mapping) : placeIn k size ms [] = ms := by
  cases ms <;> rfl

theorem getElem?_placeIn (ms : List Mapping) (dims : List (Option Nat)) (i : Nat) :
    (placeIn k size ms dims)[i]?
      = ms[i]?.map fun m => dims[i]?.join.elim m fun dim => m.place dim k size := by
  induction ms generalizing dims i with
  | nil => cases dims <;> rfl
  | cons m ms ih =>
    match dims with
    | [] =>
      rw [placeIn_nil]
      simp
    | none :: dims | some dim :: dims =>
      cases i with
      | zero => rfl
      | succ i => exact ih dims i

/-- A tensor without an entry is one with an empty entry. -/
theorem placeIn_congr {ms : List Mapping} {dims dims' : List (Option Nat)}
    (h : ∀ i < ms.length, dims[i]?.join = dims'[i]?.join) :
    placeIn k size ms dims = placeIn k size ms dims' := by
  refine List.ext_getElem? fun i => ?_
  rw [getElem?_placeIn, getElem?_placeIn]
  cases hm : ms[i]? with
  | none => rfl
  | some m => rw [h i (List.getElem?_eq_some_iff.1 hm).1]

end placeIn

/-- The dimension that an assignment names in each of `n` tensors. -/
def dimsIn (a : Assignment) (side : Side) (n : Nat) : List (Option Nat) :=
  (List.range n).map fun i => a.dim? ⟨side, i⟩

theorem getElem?_dimsIn {a : Assignment} {side : Side} {n i : Nat} (h : i < n) :
    (dimsIn a side n)[i]? = some (a.dim? ⟨side, i⟩) := by
  rw [dimsIn, List.getElem?_map, List.getElem?_range h, Option.map_some]

def assign (d : Draft) (a : Assignment) : Draft :=
  d.addFactor (dimsIn a .operand d.operands.length) (dimsIn a .result d.results.length) a.factor

def ofAssignments (sig : Signature) (as : List Assignment) : Draft := as.foldl assign (blank sig)

variable {sig : Signature} {d : Draft} {as : List Assignment} {a : Assignment} {p q : TensorDim}
  {t : TensorRef} {size : Nat}

/-- Lists of dimensions that agree with an assignment as far as there are tensors. -/
theorem addFactor_eq_assign {operandDims resultDims : List (Option Nat)}
    (ho : ∀ i < d.operands.length, operandDims[i]?.join = a.dim? ⟨.operand, i⟩)
    (hr : ∀ i < d.results.length, resultDims[i]?.join = a.dim? ⟨.result, i⟩) :
    d.addFactor operandDims resultDims a.factor = d.assign a := by
  have hoperands : placeIn d.factorCount a.factor.size d.operands operandDims
      = placeIn d.factorCount a.factor.size d.operands (dimsIn a .operand d.operands.length) :=
    placeIn_congr fun i hi => by rw [ho i hi, getElem?_dimsIn hi, Option.join_some]
  have hresults : placeIn d.factorCount a.factor.size d.results resultDims
      = placeIn d.factorCount a.factor.size d.results (dimsIn a .result d.results.length) :=
    placeIn_congr fun i hi => by rw [hr i hi, getElem?_dimsIn hi, Option.join_some]
  rw [assign, addFactor, addFactor, hoperands, hresults]

theorem addFactor_eq_assign_ofLists (d : Draft) (operandDims resultDims : List (Option Nat))
    (f : Factor) : d.addFactor operandDims resultDims f
      = d.assign (.ofLists operandDims resultDims f) :=
  addFactor_eq_assign (a := .ofLists operandDims resultDims f) (fun _ _ => rfl) (fun _ _ => rfl)

theorem addToAll_eq_assign (d : Draft) (dim : Nat) (f : Factor) :
    d.addToAll dim f = d.assign (.everywhere dim f) := by
  have hplace : ∀ (side : Side) (ms : List Mapping),
      (ms.map fun m => m.place dim d.factorCount f.size)
        = placeIn d.factorCount f.size ms (dimsIn (.everywhere dim f) side ms.length) := by
    intro side ms
    refine List.ext_getElem? fun i => ?_
    rw [getElem?_placeIn, List.getElem?_map]
    cases hm : ms[i]? with
    | none => rfl
    | some m => rw [getElem?_dimsIn (List.getElem?_eq_some_iff.1 hm).1]; rfl
  rw [addToAll, assign, addFactor]
  simp only [hplace .operand d.operands, hplace .result d.results]
  rfl

theorem sound_ofAssignments (sig : Signature) (as : List Assignment) :
    (ofAssignments sig as).Sound sig :=
  List.foldlRecOn as assign (sound_blank sig) fun _ h _ _ => h.addFactor _ _ _

/-- Steps that each make an assignment make all of them. -/
theorem foldl_eq_ofAssignments {α : Type} {f : Draft → α → Draft} {g : α → Assignment}
    {l : List α} (h : ∀ d : Draft, d.Sound sig → ∀ x ∈ l, f d x = d.assign (g x)) :
    l.foldl f (blank sig) = ofAssignments sig (l.map g) := by
  have hfold : ∀ d : Draft, d.Sound sig → l.foldl f d = (l.map g).foldl assign d := by
    induction l with
    | nil => exact fun _ _ => rfl
    | cons x l ih =>
      obtain ⟨hx, hl⟩ := List.forall_mem_cons.1 fun x hx d hd => h d hd x hx
      intro d hd
      rw [List.foldl_cons, List.map_cons, List.foldl_cons, hx d hd]
      exact ih (fun d hd x hx => hl x hx d hd) _ (hd.addFactor _ _ _)
  exact hfold _ (sound_blank sig)

/-- A typed factor for each dimension of a shape makes the positional assignments. -/
theorem addDims_eq_ofAssignments (sig : Signature) (shape : Shape)
    (type : Nat → Nat → FactorType × Bool) :
    (blank sig).addDims shape (fun dim size => some (type dim size))
      = ofAssignments sig (positional shape type) := by
  have hfold : ∀ (dim : Nat) (d : Draft),
      addDimsFrom (fun dim size => some (type dim size)) dim d shape
        = ((shape.zipIdx dim).map fun x =>
            everywhere x.2 ⟨x.1, (type x.2 x.1).1, (type x.2 x.1).2⟩).foldl assign d := by
    induction shape with
    | nil => exact fun _ _ => rfl
    | cons size rest ih =>
      intro dim d
      rw [addDimsFrom, List.zipIdx_cons, List.map_cons, List.foldl_cons, ← addToAll_eq_assign]
      exact ih (dim + 1) _
  exact hfold 0 _

theorem factors_ofAssignments (sig : Signature) (as : List Assignment) :
    (ofAssignments sig as).factors = as.map (·.factor) := by
  have hfold : ∀ d : Draft, (as.foldl assign d).factors = d.factors ++ as.map (·.factor) := by
    induction as with
    | nil => exact fun d => (List.append_nil _).symm
    | cons a as ih => exact fun d => (ih _).trans (List.append_assoc ..)
  exact (hfold _).trans (List.nil_append _)

theorem factorCount_ofAssignments (sig : Signature) (as : List Assignment) :
    (ofAssignments sig as).factorCount = as.length := by
  rw [factorCount, factors_ofAssignments, List.length_map]

theorem mapping?_assign (d : Draft) (a : Assignment) (t : TensorRef) :
    (d.assign a).mapping? t = (d.mapping? t).map fun m =>
      (a.dim? t).elim m fun dim => m.place dim d.factorCount a.factor.size := by
  have hplace : ∀ (side : Side) (ms : List Mapping) (i : Nat),
      (placeIn d.factorCount a.factor.size ms (dimsIn a side ms.length))[i]? = ms[i]?.map fun m =>
        (a.dim? ⟨side, i⟩).elim m fun dim => m.place dim d.factorCount a.factor.size := by
    intro side ms i
    rw [getElem?_placeIn]
    cases hm : ms[i]? with
    | none => rfl
    | some m => rw [getElem?_dimsIn (List.getElem?_eq_some_iff.1 hm).1, Option.join_some]
  obtain ⟨side, index⟩ := t
  cases side <;> exact hplace ..

/-- Each dimension has the number of the assignment that names it. -/
theorem mapping?_ofAssignments (h : Apart as) (t : TensorRef) :
    (ofAssignments sig as).mapping? t = ((sig.shapes t.side)[t.index]?).map fun shape =>
      ⟨shape.mapIdx fun dim _ => (numberOf? as ⟨t, dim⟩).toList⟩ := by
  induction as using List.reverseRecOn with
  | nil =>
    have hblank : ∀ shape : Shape, (shape.map fun _ => ([] : List Nat))
        = shape.mapIdx fun dim _ => (numberOf? [] ⟨t, dim⟩).toList := fun shape =>
      List.ext_getElem? fun i => by
        rw [List.getElem?_map, List.getElem?_mapIdx]
        rfl
    obtain ⟨side, index⟩ := t
    cases side <;> simp only [ofAssignments, List.foldl_nil, blank, mapping?, mappings,
      List.getElem?_map, hblank] <;> rfl
  | append_singleton as a ih =>
    obtain ⟨has, -, hlast⟩ := List.pairwise_append.1 h
    have hfold : ofAssignments sig (as ++ [a]) = (ofAssignments sig as).assign a := by
      rw [ofAssignments, List.foldl_append]
      rfl
    rw [hfold, mapping?_assign, ih has, Option.map_map, factorCount_ofAssignments]
    congr 1
    funext shape
    cases hdim : a.dim? t with
    | none => simp [numberOf?_concat, hdim]
    | some dim =>
      -- the dimension is still without a factor, so the new one is not left out
      have hfree : numberOf? as ⟨t, dim⟩ = none :=
        numberOf?_eq_none.2 fun b hb hnames =>
          hlast b hb a (List.mem_singleton.2 rfl) t dim hnames hdim
      simp only [Function.comp_apply, Option.elim_some, place, Mapping.mk.injEq]
      refine List.ext_getElem? fun i => ?_
      rw [List.getElem?_modify, List.getElem?_mapIdx, List.getElem?_mapIdx]
      by_cases hi : dim = i
      · subst hi
        cases shape[dim]? <;> simp [numberOf?_concat, hfree, hdim]
      · simp [numberOf?_concat, hdim, hi]

/-- In the rule a dimension has one factor, that of the assignment that names it or else a new one
of size 1. -/
theorem exists_factor_ofAssignments (h : Apart as) (hp : sig.size? p = some size) :
    ∃ mapping k f, (ofAssignments sig as).finish.mapping? p.tensor = some mapping ∧
      mapping.dims[p.dim]? = some [k] ∧ (ofAssignments sig as).finish.factors[k]? = some f ∧
      ((∃ a, numberOf? as p = some k ∧ as[k]? = some a ∧ a.dim? p.tensor = some p.dim ∧
          f = a.factor) ∨
        (numberOf? as p = none ∧ as.length ≤ k ∧ f.size = 1)) := by
  obtain ⟨shape, hshape, hsize⟩ := Signature.size?_eq_some.1 hp
  have hmaps := (sound_ofAssignments sig as).maps_finish p.tensor.side
  obtain ⟨hindex, rfl⟩ := List.getElem?_eq_some_iff.1 hshape
  have hm : (ofAssignments sig as).finish.mapping? p.tensor = some _ :=
    List.getElem?_eq_getElem (hmaps.length_eq.symm ▸ hindex)
  have hrank := (hmaps.get (hmaps.length_eq.symm ▸ hindex) hindex).rank
  have hfs := List.getElem?_eq_getElem (hrank.symm ▸ (List.getElem?_eq_some_iff.1 hsize).1)
  obtain ⟨before, hbefore, hcompletes⟩ := exists_completes hm
  rw [mapping?_ofAssignments h, hshape, Option.map_some, Option.some.injEq] at hbefore
  have hdim : before.dims[p.dim]? = some (numberOf? as p).toList := by
    rw [← hbefore, List.getElem?_mapIdx, hsize, Option.map_some]
  have hcompletes := hcompletes p.dim _ hfs
  rw [hdim, Option.some.injEq, Option.some.injEq] at hcompletes
  rcases hcompletes with ⟨heq, hne⟩ | ⟨hnil, k, hk, hle, hfactor⟩
  · cases hnumber : numberOf? as p with
    | none =>
      rw [hnumber] at heq
      exact absurd heq.symm hne
    | some k =>
      obtain ⟨a, ha, hnames⟩ := exists_of_numberOf? hnumber
      rw [hnumber] at heq
      refine ⟨_, k, a.factor, hm, hfs.trans (congrArg some heq.symm), ?_,
        .inl ⟨a, rfl, ha, hnames, rfl⟩⟩
      have hdraft : (ofAssignments sig as).factors[k]? = some a.factor := by
        rw [factors_ofAssignments, List.getElem?_map, ha, Option.map_some]
      rw [factors_finish, List.getElem?_append_left (List.getElem?_eq_some_iff.1 hdraft).1, hdraft]
  · rw [factorCount_ofAssignments] at hle
    exact ⟨_, k, _, hm, hfs.trans (congrArg some hk), hfactor,
      .inr ⟨Option.toList_eq_nil_iff.1 hnil, hle, rfl⟩⟩

theorem factorsAt_ofAssignments (h : Apart as) (hp : sig.size? p = some size) {k : Nat}
    (ha : as[k]? = some a) (hnames : a.dim? p.tensor = some p.dim) :
    (ofAssignments sig as).finish.factorsAt p = [k] := by
  obtain ⟨mapping, j, _, hm, hj, -, ⟨b, hnumber, -⟩ | ⟨hnone, -⟩⟩ :=
    exists_factor_ofAssignments h hp
  · rw [h.numberOf?_eq ha hnames, Option.some.injEq] at hnumber
    exact hnumber ▸ Rule.factorsAt_eq hm hj
  · exact absurd hnames (numberOf?_eq_none.1 hnone a (List.mem_of_getElem? ha))

/-- In the rule two tensors share factors where an assignment names both dimensions. -/
theorem share_ofAssignments_iff {size' : Nat} (h : Apart as) (hp : sig.size? p = some size)
    (hq : sig.size? q = some size') (hne : p.tensor ≠ q.tensor) :
    (ofAssignments sig as).finish.Share p q ↔ Joins as p q := by
  constructor
  · rintro ⟨k, hkp, hkq⟩
    obtain ⟨mp, i, _, hmp, hi, -, hnamesp⟩ := exists_factor_ofAssignments h hp
    obtain ⟨mq, j, _, hmq, hj, -, hnamesq⟩ := exists_factor_ofAssignments h hq
    rw [Rule.factorsAt_eq hmp hi, List.mem_singleton] at hkp
    rw [Rule.factorsAt_eq hmq hj, List.mem_singleton] at hkq
    obtain rfl := hkp
    obtain rfl := hkq
    rcases hnamesp with ⟨a, -, ha, hap, -⟩ | ⟨-, hle, -⟩
    · rcases hnamesq with ⟨b, -, hb, hbq, -⟩ | ⟨-, hle, -⟩
      · obtain rfl := Option.some.inj (ha.symm.trans hb)
        exact ⟨a, List.mem_of_getElem? ha, hap, hbq⟩
      · exact absurd (List.getElem?_eq_some_iff.1 ha).1 (Nat.not_lt.2 hle)
    · have hmem : ∀ {m : Mapping} {dim : Nat}, m.dims[dim]? = some [k] → k ∈ m.dims.flatten :=
        fun hdim => List.mem_flatten.2
          ⟨_, List.mem_of_getElem? hdim, List.mem_singleton.2 rfl⟩
      rw [← factorCount_ofAssignments sig] at hle
      exact absurd ((sound_ofAssignments sig as).eq_of_mem_finish hmp hmq hle (hmem hi) (hmem hj))
        hne
  · rintro ⟨a, ha, hap, haq⟩
    obtain ⟨k, ha⟩ := List.mem_iff_getElem?.1 ha
    refine ⟨k, ?_, ?_⟩
    · rw [factorsAt_ofAssignments h hp ha hap]
      exact List.mem_singleton.2 rfl
    · rw [factorsAt_ofAssignments h hq ha haq]
      exact List.mem_singleton.2 rfl

/-- The assignments name every dimension, up to those of size 1, and have the sizes of the
dimensions, up to factors along which data is permuted. -/
structure Fit (sig : Signature) (as : List Assignment) : Prop where
  apart : Apart as
  size : ∀ a ∈ as, ∀ p size, sig.size? p = some size → a.dim? p.tensor = some p.dim →
    a.factor.size = size ∨ a.factor.type = .permutation
  named : ∀ p size, sig.size? p = some size → size ≠ 1 → ∃ a ∈ as, a.dim? p.tensor = some p.dim

theorem Fit.verify (h : Fit sig as) : (ofAssignments sig as).finish.verify sig = .ok () := by
  rcases Rule.verify_eq_ok_or_misfit (sound_ofAssignments sig as).maps_finish with
    hok | ⟨t, mapping, shape, dim, fs, size, hm, hs, ⟨hfs, hsize, hne, hexempt⟩, -⟩
  · exact hok
  have hp : sig.size? ⟨t, dim⟩ = some size := Signature.size?_eq_some.2 ⟨shape, hs, hsize⟩
  obtain ⟨mapping', k, f, hm', hk, hf, hcase⟩ := exists_factor_ofAssignments h.apart hp
  obtain rfl := Option.some.inj (hm.symm.trans hm')
  obtain rfl := Option.some.inj (hfs.symm.trans hk)
  have hproduct : (ofAssignments sig as).finish.productOf [k] = f.size := by
    simp [Rule.productOf, Rule.sizeOf?, hf]
  rw [hproduct] at hne
  rcases hcase with ⟨a, -, ha, hnames, rfl⟩ | ⟨hnone, -, hone⟩
  · rcases h.size a (List.mem_of_getElem? ha) ⟨t, dim⟩ size hp hnames with heq | hpermutation
    · exact absurd heq hne
    · simp [Rule.isExempt, hf, hpermutation] at hexempt
  · obtain ⟨a, ha, hnames⟩ := h.named ⟨t, dim⟩ size hp fun heq => hne (hone.trans heq.symm)
    exact absurd hnames (numberOf?_eq_none.1 hnone a ha)

end Draft
end MeshSharding
