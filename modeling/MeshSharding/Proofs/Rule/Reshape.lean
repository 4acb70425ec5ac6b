import MeshSharding.Proofs.Layout.Stride
import MeshSharding.Proofs.Propagation.Projection
import MeshSharding.Proofs.Rule.Finish
import MeshSharding.Proofs.Rule.Links
import MeshSharding.Proofs.Wire.Content
import MeshSharding.Rule.Catalogue

/-! The rule of a reshape. An element stays at its row-major position, and a factor that both
tensors have is a digit of this position: what is behind the factor is as large in the input as in
the output. -/
namespace MeshSharding
namespace Sizes

/-- The row-major position of an index. -/
def rowMajor : List Nat → List Nat → Nat
  | _ :: sizes, i :: index => i * product sizes + rowMajor sizes index
  | _, _ => 0

theorem rowMajor_lt {sizes index : List Nat} (h : List.Forall₂ (· < ·) index sizes) :
    rowMajor sizes index < product sizes := by
  induction h with
  | nil => exact Nat.one_pos
  | cons hi _ ih => exact mul_add_lt hi ih

/-- A shape that has an index has no dimension of size 0. -/
theorem pos_of_forall₂_lt {sizes index : List Nat} (h : List.Forall₂ (· < ·) index sizes) :
    ∀ size ∈ sizes, 0 < size := by
  induction h with
  | nil => nofun
  | cons hlt _ ih => exact List.forall_mem_cons.2 ⟨Nat.zero_lt_of_lt hlt, ih⟩

end Sizes

namespace Mesh

theorem digits_mul_add (sizes : List Nat) (c index : Nat) :
    digits sizes (c * Sizes.product sizes + index) = digits sizes index := by
  induction sizes generalizing c with
  | nil => rfl
  | cons size sizes ih =>
    have hassoc : c * (size * Sizes.product sizes) = c * size * Sizes.product sizes :=
      (Nat.mul_assoc ..).symm
    rw [digits, digits, Sizes.product_cons, hassoc, ih]
    congr 1
    rcases Nat.eq_zero_or_pos (Sizes.product sizes) with hzero | hpos
    · rw [hzero, Nat.div_zero, Nat.div_zero]
    · rw [Nat.add_comm, Nat.add_mul_div_right _ _ hpos, Nat.add_mul_mod_self_right]

/-- The digits of the position of an index are the index. -/
theorem digits_rowMajor {sizes index : List Nat} (h : List.Forall₂ (· < ·) index sizes) :
    digits sizes (Sizes.rowMajor sizes index) = index := by
  induction h with
  | nil => rfl
  | @cons i size index sizes hi hrest ih =>
    have hlt := Sizes.rowMajor_lt hrest
    have hpos : 0 < Sizes.product sizes := Nat.zero_lt_of_lt hlt
    rw [Sizes.rowMajor, digits, digits_mul_add, ih, Nat.add_comm, Nat.add_mul_div_right _ _ hpos,
      Nat.div_eq_of_lt hlt, Nat.zero_add, Nat.mod_eq_of_lt hi]

end Mesh

namespace Rule

/-- The digit of a factor at an index: the coordinate of its dimension is decomposed over the
factors of the dimension, from major to minor. -/
def digit? (r : Rule) (mapping : Mapping) (index : List Nat) (factor : Nat) : Option Nat :=
  (mapping.positionOf factor).bind fun p =>
    (Mesh.digits ((mapping.factorsOf p.1).map fun f => (r.sizeOf? f).getD 1)
      (index.getD p.1 0))[p.2]?

end Rule

namespace Reshape

variable {side : Side} {ls front back : List Link} {l : Link} {r : Rule} {dim k : Nat}

/-- The numbers of the links to a dimension, counted from `k` on. -/
def numbersOf (side : Side) (dim k : Nat) (ls : List Link) : List Nat :=
  ((ls.zipIdx k).filter fun p => (p.1.dim side).any fun d => d = dim).map (·.2)

theorem numbersOf_append (side : Side) (dim k : Nat) (front back : List Link) :
    numbersOf side dim k (front ++ back)
      = numbersOf side dim k front ++ numbersOf side dim (k + front.length) back := by
  rw [numbersOf, List.zipIdx_append, List.filter_append, List.map_append]
  rfl

theorem numbersOf_cons (side : Side) (dim k : Nat) (l : Link) (ls : List Link) :
    numbersOf side dim k (l :: ls)
      = numbersOf side dim k [l] ++ numbersOf side dim (k + 1) ls :=
  numbersOf_append side dim k [l] ls

theorem numbersOf_singleton (side : Side) (dim k : Nat) (l : Link) :
    numbersOf side dim k [l] = if l.dim side = some dim then [k] else [] := by
  cases h : l.dim side with
  | none => simp [numbersOf, h]
  | some d => by_cases hd : d = dim <;> simp [numbersOf, h, hd]

theorem nodup_numbersOf (side : Side) (dim k : Nat) (ls : List Link) :
    (numbersOf side dim k ls).Nodup := by
  have hsub : (numbersOf side dim k ls).Sublist (List.range' k ls.length) := by
    rw [← List.zipIdx_map_snd]
    exact List.filter_sublist.map _
  exact hsub.nodup List.nodup_range'

theorem mem_numbersOf {f : Nat} :
    f ∈ numbersOf side dim 0 ls ↔ ∃ l, ls[f]? = some l ∧ l.dim side = some dim := by
  simp [numbersOf, List.mk_mem_zipIdx_iff_getElem?, Option.any_eq_true]

/-- The sizes of the factors of a dimension make up its span. -/
theorem product_numbersOf (h : ∀ i l, ls[i]? = some l → r.sizeOf? (k + i) = some l.size) :
    Sizes.product ((numbersOf side dim k ls).map fun f => (r.sizeOf? f).getD 1)
      = span side (fun d => d = dim) ls := by
  induction ls generalizing k with
  | nil => rfl
  | cons l ls ih =>
    have hfirst : r.sizeOf? k = some l.size := h 0 l rfl
    have hrest := ih (k := k + 1) fun i l' hl' => by
      rw [Nat.add_assoc, Nat.add_comm 1]
      exact h (i + 1) l' hl'
    rw [numbersOf_cons, numbersOf_singleton, List.map_append, Sizes.product_append, hrest,
      span_cons]
    congr 1
    cases hdim : l.dim side with
    | none => rfl
    | some d => by_cases hd : d = dim <;> simp [hd, hfirst]

/-- A tensor has the links of one side as factors, besides factors of its own. -/
structure Carries (r : Rule) (side : Side) (shape : Shape) (ls : List Link) (mapping : Mapping) :
    Prop where
  sizes : ∀ k l, ls[k]? = some l → r.sizeOf? k = some l.size
  rank : mapping.rank = shape.length
  factors : ∀ dim fs f, mapping.dims[dim]? = some fs → f ∈ fs → f < ls.length →
    fs = numbersOf side dim 0 ls
  ascending : Ascending side ls
  span_eq : ∀ p, span side p ls = extent p (dimsFrom 0 shape)

/-- A digit of a digit. -/
theorem div_mod_div_mod {x a b q n : Nat} : x / a % (b * (n * q)) / q % n = x / (a * q) % n := by
  have hcomm : b * (n * q) = q * (n * b) := by
    rw [Nat.mul_left_comm, Nat.mul_comm b, Nat.mul_left_comm]
  rw [hcomm, Nat.mod_mul_right_div_self, Nat.mod_mod_of_dvd _ (Nat.dvd_mul_right n b),
    Nat.div_div_eq_div_mul]

namespace Carries

variable {shape : Shape} {mapping : Mapping} {index : List Nat}

theorem size_eq (h : Carries r side shape ls mapping) (hdim : dim < shape.length) :
    shape[dim]? = some (span side (fun d => d = dim) ls) := by
  have hextent := extent_dimsFrom_eq 0 dim shape
  rw [Nat.zero_add, ← h.span_eq, List.getD_eq_getElem?_getD, List.getElem?_eq_getElem hdim]
    at hextent
  rw [hextent, List.getElem?_eq_getElem hdim, Option.getD_some]

theorem product_drop (h : Carries r side shape ls mapping) (dim : Nat) :
    Sizes.product (shape.drop (dim + 1)) = span side (fun d => dim < d) ls :=
  (extent_dimsFrom_le 0 (dim + 1) shape).symm.trans (h.span_eq _).symm

/-- The coordinate of a dimension is a digit of the position. -/
theorem getD_eq (h : Carries r side shape ls mapping) (hindex : List.Forall₂ (· < ·) index shape)
    (hdim : dim < shape.length) : index.getD dim 0
      = Sizes.rowMajor shape index / span side (fun d => dim < d) ls
          % span side (fun d => d = dim) ls := by
  have hdigit := Mesh.getElem?_digits shape (Sizes.rowMajor shape index) dim
  rw [Mesh.digits_rowMajor hindex, h.size_eq hdim, h.product_drop, Option.map_some] at hdigit
  rw [List.getD_eq_getElem?_getD, hdigit, Option.getD_some]

/-- The factor of a link is behind those of the earlier links to its dimension. -/
theorem numbersOf_eq (hdim : l.dim side = some dim) : numbersOf side dim 0 (front ++ l :: back)
    = numbersOf side dim 0 front
        ++ front.length :: numbersOf side dim (front.length + 1) back := by
  rw [numbersOf_append, numbersOf_cons, numbersOf_singleton, if_pos hdim, Nat.zero_add]
  rfl

/-- Of a coordinate, the digit of a link is in front of the later links to the dimension. -/
theorem getElem?_digits (h : Carries r side shape (front ++ l :: back) mapping)
    (hdim : l.dim side = some dim) (coordinate : Nat) :
    (Mesh.digits ((numbersOf side dim 0 (front ++ l :: back)).map fun f => (r.sizeOf? f).getD 1)
      coordinate)[(numbersOf side dim 0 front).length]?
      = some (coordinate / span side (fun d => d = dim) back % l.size) := by
  have hself : r.sizeOf? front.length = some l.size := h.sizes _ l (by simp)
  have hlater : ∀ i l', back[i]? = some l' → r.sizeOf? (front.length + 1 + i) = some l'.size := by
    refine fun i l' hl' => h.sizes _ l' ?_
    rw [List.append_cons, List.getElem?_append_right (by simp)]
    simpa using hl'
  rw [Mesh.getElem?_digits, numbersOf_eq hdim, List.map_append, List.map_cons, hself,
    Option.getD_some, List.getElem?_append_right (by simp), List.append_cons,
    List.drop_left' (by simp), product_numbersOf hlater]
  simp

/-- The digit of a link at an index is a digit of the position of the index, in front of the later
links of the side. -/
theorem digit?_eq (h : Carries r side shape (front ++ l :: back) mapping)
    (hindex : List.Forall₂ (· < ·) index shape) (hhas : mapping.has front.length = true) :
    r.digit? mapping index front.length
      = some (Sizes.rowMajor shape index / span side (fun _ => true) back % l.size) := by
  obtain ⟨⟨dim, place⟩, hposition⟩ := Option.isSome_iff_exists.1 hhas
  obtain ⟨fs, hfs, hplace⟩ := Mapping.positionOf_eq_some hposition
  have hlt : front.length < (front ++ l :: back).length := by simp
  obtain rfl := h.factors dim fs _ hfs (List.mem_of_getElem? hplace) hlt
  have hdim : l.dim side = some dim := by
    obtain ⟨l', hl', hdim⟩ := mem_numbersOf.1 (List.mem_of_getElem? hplace)
    rw [List.getElem?_append_right (Nat.le_refl _), Nat.sub_self] at hl'
    exact Option.some.inj hl' ▸ hdim
  have hrank : dim < shape.length := h.rank ▸ (List.getElem?_eq_some_iff.1 hfs).1
  have hfirst : place = (numbersOf side dim 0 front).length := by
    have hnodup := nodup_numbersOf side dim 0 (front ++ l :: back)
    refine (List.getElem?_inj (List.getElem?_eq_some_iff.1 hplace).1 hnodup).1 ?_
    rw [hplace, numbersOf_eq hdim]
    simp
  have hspan : span side (fun d => d = dim) (front ++ l :: back)
      = span side (fun d => d = dim) front * (l.size * span side (fun d => d = dim) back) := by
    rw [span_append, span_cons, hdim, Option.any_some, if_pos (decide_eq_true rfl)]
  rw [Rule.digit?, hposition, Option.bind_some, Mapping.factorsOf_eq hfs, hfirst,
    h.getElem?_digits hdim, h.getD_eq hindex hrank, hspan, div_mod_div_mod,
    h.ascending.span_mul_span hdim]

end Carries

/-- The factor of a link. -/
def Link.factor (l : Link) : Factor := ⟨l.size, typeOf l, false⟩

/-- The dimensions of a tensor with the factors of the links. -/
def numbered (side : Side) (k : Nat) (ls : List Link) (dims : List (List Nat)) : List (List Nat) :=
  dims.mapIdx fun dim fs => fs ++ numbersOf side dim k ls

@[simp] theorem numbered_nil (side : Side) (k : Nat) (dims : List (List Nat)) :
    numbered side k [] dims = dims :=
  List.ext_getElem? fun i => by simp [numbered, numbersOf]

theorem numbered_cons (side : Side) (k : Nat) (l : Link) (ls : List Link) (dims : List (List Nat)) :
    numbered side k (l :: ls) dims = numbered side (k + 1) ls (numbered side k [l] dims) := by
  simp only [numbered, List.mapIdx_mapIdx]
  congr 1
  funext dim fs
  rw [Function.comp_apply, numbersOf_cons, List.append_assoc]

/-- A factor of size above 1 is added to the dimension of the link. -/
theorem placeIn_dim (hsize : 1 < l.size) (side : Side) (k : Nat) (dims : List (List Nat)) :
    Draft.placeIn k l.size [⟨dims⟩] [l.dim side] = [⟨numbered side k [l] dims⟩] := by
  cases hdim : l.dim side with
  | none =>
    have hsame : numbered side k [l] dims = dims :=
      List.ext_getElem? fun i => by simp [numbered, numbersOf_singleton, hdim]
    rw [hsame]
    rfl
  | some d =>
    have hplace : (⟨dims⟩ : Mapping).place d k l.size = ⟨numbered side k [l] dims⟩ := by
      rw [Mapping.place, Mapping.mk.injEq]
      refine List.ext_getElem? fun i => ?_
      rw [List.getElem?_modify, numbered, List.getElem?_mapIdx]
      by_cases hi : d = i <;> simp [numbersOf_singleton, hdim, hi, Nat.ne_of_gt hsize]
    rw [← hplace]
    rfl

theorem foldl_addLink (h : ∀ l ∈ ls, 1 < l.size) (factors : List Factor) (ds es : List (List Nat)) :
    ls.foldl addLink ⟨factors, [⟨ds⟩], [⟨es⟩]⟩
      = ⟨factors ++ ls.map Link.factor, [⟨numbered .operand factors.length ls ds⟩],
          [⟨numbered .result factors.length ls es⟩]⟩ := by
  induction ls generalizing factors ds es with
  | nil => simp
  | cons l ls ih =>
    obtain ⟨hl, hls⟩ := List.forall_mem_cons.1 h
    have hstep : addLink ⟨factors, [⟨ds⟩], [⟨es⟩]⟩ l
        = ⟨factors ++ [l.factor], [⟨numbered .operand factors.length [l] ds⟩],
            [⟨numbered .result factors.length [l] es⟩]⟩ := by
      rw [← placeIn_dim hl, ← placeIn_dim hl]
      rfl
    rw [List.foldl_cons, hstep, ih hls, List.length_append, List.length_singleton,
      ← numbered_cons, ← numbered_cons, List.map_cons, List.append_assoc]
    rfl

/-- The numbers of the links to each dimension. -/
def linkedDims (side : Side) (ls : List Link) (shape : Shape) : List (List Nat) :=
  numbered side 0 ls (shape.map fun _ => [])

theorem getElem?_linkedDims {shape : Shape} {fs : List Nat}
    (h : (linkedDims side ls shape)[dim]? = some fs) : fs = numbersOf side dim 0 ls := by
  rw [linkedDims, numbered, List.getElem?_mapIdx, List.getElem?_map, Option.map_map] at h
  obtain ⟨_, _, rfl⟩ := Option.map_eq_some_iff.1 h
  rfl

theorem draft_eq {input output : Shape}
    (h : ∀ l ∈ links (dimsOf input) (dimsOf output), 1 < l.size) :
    let ls := links (dimsOf input) (dimsOf output)
    draft input output = ⟨ls.map Link.factor, [⟨linkedDims .operand ls input⟩],
      [⟨linkedDims .result ls output⟩]⟩ :=
  foldl_addLink h [] _ _

theorem mem_linkedDims {shape : Shape} {f : Nat} (h : f ∈ (linkedDims side ls shape).flatten) :
    ∃ l, ls[f]? = some l ∧ (l.dim side).isSome = true := by
  obtain ⟨fs, hfs, hf⟩ := List.mem_flatten.1 h
  obtain ⟨dim, hdim⟩ := List.mem_iff_getElem?.1 hfs
  rw [getElem?_linkedDims hdim] at hf
  obtain ⟨l, hl, hl'⟩ := mem_numbersOf.1 hf
  exact ⟨l, hl, Option.isSome_of_eq_some hl'⟩

/-- Dimensions without links get factors of their own. -/
theorem carries_fillDims {shape : Shape} {next : Nat}
    (hsizes : ∀ k l, ls[k]? = some l → r.sizeOf? k = some l.size) (hascending : Ascending side ls)
    (hspan : ∀ p, span side p ls = extent p (dimsFrom 0 shape)) (hnext : ls.length ≤ next) :
    Carries r side shape ls ⟨(Mapping.fillDims next (linkedDims side ls shape)).1⟩ where
  sizes := hsizes
  rank := by simp [Mapping.rank, linkedDims, numbered]
  factors dim fs f hfs hf hlt := by
    rcases Mapping.getElem?_fillDims hfs with ⟨hlinked, -⟩ | ⟨-, k, rfl, hk, -⟩
    · exact getElem?_linkedDims hlinked
    · have heq := List.mem_singleton.1 hf
      omega
  ascending := hascending
  span_eq := hspan

/-- The factors that both tensors of a reshape have are links of both sides. -/
theorem exists_link {input output : Shape} {f : Nat}
    (hinput : f ∈ (Mapping.fillDims ls.length (linkedDims .operand ls input)).1.flatten)
    (houtput : f ∈ (Mapping.fillDims (Mapping.fillDims ls.length (linkedDims .operand ls input)).2
      (linkedDims .result ls output)).1.flatten) :
    ∃ l, ls[f]? = some l ∧ l.input.isSome = true ∧ l.output.isSome = true := by
  have hlt : ∀ {side : Side} {shape : Shape}, f ∈ (linkedDims side ls shape).flatten →
      f < ls.length := fun hmem => by
    obtain ⟨l, hl, -⟩ := mem_linkedDims hmem
    exact (List.getElem?_eq_some_iff.1 hl).1
  have hnext := Mapping.fillDims_snd ls.length (linkedDims .operand ls input)
  -- the factors that are added have numbers above the links, and other ones in each tensor
  rcases List.mem_append.1 ((Mapping.flatten_fillDims_perm ..).mem_iff.1 hinput) with hi | hi <;>
    rcases List.mem_append.1 ((Mapping.flatten_fillDims_perm ..).mem_iff.1 houtput) with ho | ho
  · obtain ⟨l, hl, hinput⟩ := mem_linkedDims hi
    obtain ⟨l', hl', houtput⟩ := mem_linkedDims ho
    exact ⟨l, hl, hinput, Option.some.inj (hl'.symm.trans hl) ▸ houtput⟩
  · have hf := hlt hi
    have hge := (List.mem_range'_1.1 ho).1
    omega
  · have hf := hlt ho
    have hge := (List.mem_range'_1.1 hi).1
    omega
  · have hbelow := (List.mem_range'_1.1 hi).2
    have hge := (List.mem_range'_1.1 ho).1
    omega

/-- The operation is registered with its own factory. -/
theorem ruleFor_eq (attrs : Attributes) (sig : Signature) :
    Catalogue.builtin.ruleFor "stablehlo.reshape" attrs sig
      = (RuleFactory.reshape attrs sig >>= fun rule => rule.verify sig >>= fun _ => .ok rule) := by
  have hfind : Sorted.find? "stablehlo.reshape" Catalogue.builtin = some RuleFactory.reshape := by
    rw [Catalogue.builtin, Sorted.find?_ofEntries]
    · rfl
    · decide +kernel
  rw [Catalogue.ruleFor, Catalogue.propose, hfind]
  rfl

/-- The registered rule of a reshape is that of its links. -/
theorem eq_finish_of_ruleFor {attrs : Attributes} {input output : Shape}
    (h : Catalogue.builtin.ruleFor "stablehlo.reshape" attrs ⟨[input], [output]⟩ = .ok r) :
    Sizes.product input = Sizes.product output ∧ r = (draft input output).finish ∧
      r.verify ⟨[input], [output]⟩ = .ok () := by
  rw [ruleFor_eq] at h
  obtain ⟨rule, hfactory, h⟩ := bind_eq_ok_iff.1 h
  obtain ⟨_, hverify, hreturn⟩ := bind_eq_ok_iff.1 h
  cases hreturn
  simp only [RuleFactory.reshape] at hfactory
  split at hfactory
  · rename_i hcount
    exact ⟨hcount, (Except.ok.inj hfactory).symm, hverify⟩
  · cases hfactory

theorem extent_true (shape : Shape) :
    extent (fun _ => true) (dimsFrom 0 shape) = Sizes.product shape := by
  have hall : (fun _ => true) = fun e => decide (0 ≤ e) := by
    funext e
    exact (decide_eq_true (Nat.zero_le e)).symm
  rw [hall, extent_dimsFrom_le]
  rfl

/-- Both tensors carry the links as factors, with dimensions of size 0 as if they were of size 1. -/
theorem carries_raised (input output : Shape) :
    let ls := links (dimsOf input) (dimsOf output)
    let r := (draft input output).finish
    (∀ (k : Nat) (l : Link), ls[k]? = some l → r.factors[k]? = some l.factor) ∧
    ∃ mi mo, r.operands = [mi] ∧ r.results = [mo] ∧ Carries r .operand (raised input) ls mi ∧
      Carries r .result (raised output) ls mo ∧ ∀ f, mi.has f = true → mo.has f = true →
        ∃ l, ls[f]? = some l ∧ l.input.isSome = true ∧ l.output.isSome = true := by
  intro ls r
  have hm : Matching (dimsFrom 0 (raised input)) (dimsFrom 0 (raised output)) ls :=
    matching_raised input output
  have hdraft : draft input output = _ := draft_eq hm.one_lt_size
  have hfactors : ∀ (k : Nat) (l : Link), ls[k]? = some l → r.factors[k]? = some l.factor := by
    intro k l hl
    have hlt : k < (ls.map Link.factor).length := by
      rw [List.length_map]
      exact (List.getElem?_eq_some_iff.1 hl).1
    rw [Draft.factors_finish, hdraft, List.getElem?_append_left hlt, List.getElem?_map, hl]
    rfl
  have hsizes : ∀ (k : Nat) (l : Link), ls[k]? = some l → r.sizeOf? k = some l.size := by
    intro k l hl
    rw [Rule.sizeOf?, hfactors k l hl]
    rfl
  have hcount : (ls.map Link.factor).length = ls.length := List.length_map ..
  have hdims : ∀ (side : Side) (shape : Shape),
      linkedDims side ls (raised shape) = linkedDims side ls shape := fun side shape => by
    rw [linkedDims, linkedDims, raised, List.map_map]
    rfl
  have hin := carries_fillDims hsizes (hm.ascending .operand (sorted_dimsFrom 0 _)).1
    (hm.span_eq_extent .operand) (Nat.le_refl _)
  have hout := carries_fillDims hsizes (hm.ascending .result (sorted_dimsFrom 0 _)).1
    (hm.span_eq_extent .result)
    (Mapping.le_fillDims_snd ls.length (linkedDims .operand ls input))
  rw [hdims] at hin hout
  refine ⟨hfactors, _, _, ?_, ?_, hin, hout,
    fun f hmi hmo => exists_link (Mapping.has_iff.1 hmi) (Mapping.has_iff.1 hmo)⟩
  · rw [← hcount]
    exact congrArg (fun d => d.finish.operands) hdraft
  · rw [← hcount]
    exact congrArg (fun d => d.finish.results) hdraft

theorem carries_finish {input output : Shape} (hi : ∀ size ∈ input, 0 < size)
    (ho : ∀ size ∈ output, 0 < size) :
    let ls := links (dimsOf input) (dimsOf output)
    let r := (draft input output).finish
    (∀ (k : Nat) (l : Link), ls[k]? = some l → r.factors[k]? = some l.factor) ∧
    ∃ mi mo, r.operands = [mi] ∧ r.results = [mo] ∧ Carries r .operand input ls mi ∧
      Carries r .result output ls mo ∧ ∀ f, mi.has f = true → mo.has f = true →
        ∃ l, ls[f]? = some l ∧ l.input.isSome = true ∧ l.output.isSome = true := by
  have hcarries := carries_raised input output
  rwa [raised_eq_self hi, raised_eq_self ho] at hcarries

/-- Where a reshape has a rule, each factor that both tensors have flows freely, and it has the same
digit at the indices of both that are at one row-major position. -/
theorem digit?_eq_of_rowMajor_eq (attrs : Attributes) (input output : Shape) (r : Rule)
    (h : Catalogue.builtin.ruleFor "stablehlo.reshape" attrs ⟨[input], [output]⟩ = .ok r) :
    ∃ mi mo, r.operands = [mi] ∧ r.results = [mo] ∧
      ∀ i j : List Nat, List.Forall₂ (· < ·) i input → List.Forall₂ (· < ·) j output →
        Sizes.rowMajor input i = Sizes.rowMajor output j →
        ∀ f, mi.has f = true → mo.has f = true →
          f ∈ r.factorsOfType .passThrough ∧
            ∃ digit, r.digit? mi i f = some digit ∧ r.digit? mo j f = some digit := by
  obtain ⟨hcount, rfl, hverify⟩ := eq_finish_of_ruleFor h
  have hone : ∀ side, ((draft input output).finish.mappings side).length = 1 := fun side =>
    (Rule.maps_of_verify hverify side).1.trans (by cases side <;> rfl)
  obtain ⟨mi, hmi⟩ := List.length_eq_one_iff.1 (hone .operand)
  obtain ⟨mo, hmo⟩ := List.length_eq_one_iff.1 (hone .result)
  refine ⟨mi, mo, hmi, hmo, fun i j hi hj hposition f hfi hfo => ?_⟩
  have hinput := Sizes.pos_of_forall₂_lt hi
  have houtput := Sizes.pos_of_forall₂_lt hj
  obtain ⟨hfactors, mi', mo', hmi', hmo', hin, hout, hlinks⟩ := carries_finish hinput houtput
  cases hmi.symm.trans hmi'
  cases hmo.symm.trans hmo'
  obtain ⟨l, hl, hleft, hright⟩ := hlinks f hfi hfo
  obtain ⟨front, back, hls, rfl⟩ : ∃ front back,
      links (dimsOf input) (dimsOf output) = front ++ l :: back ∧ front.length = f := by
    obtain ⟨hlt, rfl⟩ := List.getElem?_eq_some_iff.1 hl
    refine ⟨_, (links (dimsOf input) (dimsOf output)).drop (f + 1),
      (List.take_append_drop f _).symm.trans ?_, List.length_take_of_le hlt.le⟩
    rw [List.drop_eq_getElem_cons hlt]
  have hspan := (matching_shapes hinput houtput).span_eq_span
    (by rw [extent_true, extent_true, hcount]) hls hleft hright
  rw [hls] at hin hout
  refine ⟨Rule.mem_factorsWhere.2 ⟨l.factor, hfactors _ l hl, ?_⟩, _, hin.digit?_eq hi hfi, ?_⟩
  · simp [Link.factor, typeOf, hleft, hright]
  · rw [hout.digit?_eq hj hfo, hposition, hspan]

/-- A dimension that is split, one of size 1, and two that are not matched. -/
theorem digit?_eq_of_rowMajor_eq_split :
    let input := [8, 1, 6, 4]
    let output := [2, 4, 4, 6]
    let mi : Mapping := ⟨[[0, 1], [6], [2], [3]]⟩
    let mo : Mapping := ⟨[[0], [1], [4], [5]]⟩
    let kept (size : Nat) : Factor := ⟨size, .needReplication, false⟩
    let r : Rule := ⟨[⟨2, .passThrough, false⟩, ⟨4, .passThrough, false⟩, kept 6, kept 4, kept 4,
      kept 6, ⟨1, .passThrough, false⟩], [mi], [mo], false⟩
    Catalogue.builtin.ruleFor "stablehlo.reshape" [] ⟨[input], [output]⟩ = .ok r ∧
      List.Forall₂ (· < ·) [5, 0, 3, 2] input ∧ List.Forall₂ (· < ·) [1, 1, 2, 2] output ∧
      Sizes.rowMajor input [5, 0, 3, 2] = Sizes.rowMajor output [1, 1, 2, 2] ∧
      mi.has 1 = true ∧ mo.has 1 = true ∧ 1 ∈ r.factorsOfType .passThrough ∧
      ∃ digit, r.digit? mi [5, 0, 3, 2] 1 = some digit ∧
        r.digit? mo [1, 1, 2, 2] 1 = some digit := by
  intro input output mi mo kept r
  have hrule : Catalogue.builtin.ruleFor "stablehlo.reshape" [] ⟨[input], [output]⟩ = .ok r := by
    rw [ruleFor_eq]
    decide +kernel
  have hi : List.Forall₂ (· < ·) [5, 0, 3, 2] input := by simp [input]
  have hj : List.Forall₂ (· < ·) [1, 1, 2, 2] output := by simp [output]
  obtain ⟨mi', mo', hmi, hmo, hdigit⟩ := digit?_eq_of_rowMajor_eq [] input output r hrule
  cases hmi
  cases hmo
  exact ⟨hrule, hi, hj, rfl, rfl, rfl, hdigit _ _ hi hj rfl 1 rfl rfl⟩

end Reshape
end MeshSharding
