import Mathlib.Data.List.Pairwise
import MeshSharding.Rule.Reshape

/-! The links of a reshape. A link divides the sizes that are not yet matched of an input and of an
output dimension by its own size, so behind each link as much of the input is left as of the
output. On both sides the links cut the dimensions one after the other. -/
namespace MeshSharding
namespace Reshape

variable {side : Side} {p : Nat → Bool} {ins outs : List (Nat × Nat)} {ls front back : List Link}
  {l : Link} {d : Nat}

/-- The dimension of a link in the input or in the output. -/
def Link.dim (l : Link) : Side → Option Nat
  | .operand => l.input
  | .result => l.output

/-- The dimensions of the input or of the output. -/
def dimsAt (ins outs : List (Nat × Nat)) : Side → List (Nat × Nat)
  | .operand => ins
  | .result => outs

/-- The product of the sizes of the dimensions with `p`. -/
def extent (p : Nat → Bool) (dims : List (Nat × Nat)) : Nat :=
  Sizes.product ((dims.filter fun q => p q.1).map (·.2))

/-- The product of the sizes of the links to dimensions with `p`. -/
def span (side : Side) (p : Nat → Bool) (ls : List Link) : Nat :=
  Sizes.product ((ls.filter fun l => (l.dim side).any p).map (·.size))

@[simp] theorem extent_nil (p : Nat → Bool) : extent p [] = 1 := rfl

theorem extent_cons (p : Nat → Bool) (q : Nat × Nat) (dims : List (Nat × Nat)) :
    extent p (q :: dims) = (if p q.1 then q.2 else 1) * extent p dims := by
  cases h : p q.1 <;> simp [extent, h]

@[simp] theorem span_nil (side : Side) (p : Nat → Bool) : span side p [] = 1 := rfl

theorem span_cons (side : Side) (p : Nat → Bool) (l : Link) (ls : List Link) :
    span side p (l :: ls) = (if (l.dim side).any p then l.size else 1) * span side p ls := by
  cases h : (l.dim side).any p <;> simp [span, h]

theorem span_append (side : Side) (p : Nat → Bool) (front back : List Link) :
    span side p (front ++ back) = span side p front * span side p back := by
  simp [span]

theorem extent_eq_one {dims : List (Nat × Nat)} (h : ∀ q ∈ dims, p q.1 = false) :
    extent p dims = 1 := by
  rw [extent, List.filter_eq_nil_iff.2 fun q hq => by simp [h q hq]]
  rfl

theorem span_eq_one (h : ∀ l ∈ ls, (l.dim side).any p = false) : span side p ls = 1 := by
  rw [span, List.filter_eq_nil_iff.2 fun l hl => by simp [h l hl]]
  rfl

theorem span_map {f : Nat × Nat → Link} (hdim : ∀ q, (f q).dim side = some q.1)
    (hsize : ∀ q, (f q).size = q.2) (dims : List (Nat × Nat)) :
    span side p (dims.map f) = extent p dims := by
  induction dims with
  | nil => rfl
  | cons q dims ih =>
    rw [List.map_cons, span_cons, extent_cons, ih, hdim, hsize, Option.any_some]

theorem span_map_of_none {f : Nat × Nat → Link} (hdim : ∀ q, (f q).dim side = none)
    (dims : List (Nat × Nat)) : span side p (dims.map f) = 1 :=
  span_eq_one <| List.forall_mem_map.2 fun q _ => by rw [hdim, Option.any_none]

/-- A dimension of which nothing is left is done with. -/
def cut (dim left : Nat) (dims : List (Nat × Nat)) : List (Nat × Nat) :=
  if left = 1 then dims else (dim, left) :: dims

theorem cut_of_lt {dim left : Nat} {dims : List (Nat × Nat)} (h : 1 < left) :
    cut dim left dims = (dim, left) :: dims := if_neg (Nat.ne_of_gt h)

theorem extent_cut (dim left : Nat) (dims : List (Nat × Nat)) :
    extent p (cut dim left dims) = (if p dim then left else 1) * extent p dims := by
  rw [cut]
  split
  · rename_i hone
    rw [hone, ite_self, Nat.one_mul]
  · exact extent_cons p (dim, left) dims

theorem sublist_cut {dim left size : Nat} {dims : List (Nat × Nat)} :
    ((cut dim left dims).map (·.1)).Sublist (((dim, size) :: dims).map (·.1)) := by
  rw [cut]
  split
  · exact List.sublist_cons_self ..
  · exact List.Sublist.refl _

/-- The dimensions of a side of the links do not decrease. -/
def Ascending (side : Side) (ls : List Link) : Prop :=
  ls.Pairwise fun l l' => ∀ d d', l.dim side = some d → l'.dim side = some d' → d ≤ d'

/-- A list of links matches dimensions: each link takes its size off the first ones of both sides,
until the dimensions that are left are kept to themselves. -/
inductive Matching : List (Nat × Nat) → List (Nat × Nat) → List Link → Prop
  | stop {ins outs : List (Nat × Nat)} (large : ∀ side, ∀ q ∈ dimsAt ins outs side, 1 < q.2) :
    Matching ins outs (leftover ins outs)
  | link {i o n x y : Nat} {ins outs : List (Nat × Nat)} {ls : List Link} (large : 1 < n) :
    Matching (cut i x ins) (cut o y outs) ls →
      Matching ((i, n * x) :: ins) ((o, n * y) :: outs) (⟨some i, some o, n⟩ :: ls)

theorem Matching.step {i o a b n x y : Nat} (large : 1 < n) (ha : n * x = a) (hb : n * y = b)
    (h : Matching (cut i x ins) (cut o y outs) ls) :
    Matching ((i, a) :: ins) ((o, b) :: outs) (⟨some i, some o, n⟩ :: ls) :=
  ha ▸ hb ▸ .link large h

/-- The dimensions of size other than 0. -/
def inhabited (dims : List (Nat × Nat)) : List (Nat × Nat) := dims.filter fun q => q.2 ≠ 0

theorem inhabited_cons {a : Nat} (ha : a ≠ 0) (dims : List (Nat × Nat)) :
    inhabited ((d, a) :: dims) = (d, a) :: inhabited dims :=
  List.filter_cons_of_pos (by simpa using ha)

theorem one_lt_of_mem_inhabited {dims : List (Nat × Nat)} (h : ∀ q ∈ dims, q.2 ≠ 1) :
    ∀ q ∈ inhabited dims, 1 < q.2 := by
  intro q hq
  obtain ⟨hmem, hzero⟩ := List.mem_filter.1 hq
  exact Nat.one_lt_iff_ne_zero_and_ne_one.2 ⟨by simpa using hzero, h q hmem⟩

theorem leftover_inhabited (ins outs : List (Nat × Nat)) :
    leftover (inhabited ins) (inhabited outs) = leftover ins outs := by
  have hkept : ∀ dims : List (Nat × Nat),
      (inhabited dims).filter (fun q => 1 < q.2) = dims.filter fun q => 1 < q.2 := fun dims => by
    rw [inhabited, List.filter_filter]
    refine List.filter_congr fun q _ => ?_
    by_cases hlarge : 1 < q.2
    · simp [hlarge, Nat.ne_of_gt (Nat.lt_trans Nat.one_pos hlarge)]
    · simp [hlarge]
  rw [leftover, leftover, hkept, hkept]

theorem matching_leftover (hi : ∀ q ∈ ins, q.2 ≠ 1) (ho : ∀ q ∈ outs, q.2 ≠ 1) :
    Matching (inhabited ins) (inhabited outs) (leftover ins outs) := by
  rw [← leftover_inhabited]
  exact .stop (Side.rec (one_lt_of_mem_inhabited hi) (one_lt_of_mem_inhabited ho))

/-- A proper multiple leaves a quotient that is still to be matched. -/
theorem one_lt_div {a b : Nat} (ha : a ≠ 0) (hne : a ≠ b) (hmod : a % b = 0) :
    1 < a / b ∧ b * (a / b) = a := by
  have hmul := Nat.mul_div_cancel' (Nat.dvd_of_mod_eq_zero hmod)
  refine ⟨Nat.one_lt_iff_ne_zero_and_ne_one.2 ⟨fun h => ?_, fun h => ?_⟩, hmul⟩ <;>
    rw [h] at hmul <;> omega

/-- Links end at a dimension of size 0, and leave it out. -/
theorem matching_links (hi : ∀ q ∈ ins, q.2 ≠ 1) (ho : ∀ q ∈ outs, q.2 ≠ 1) :
    Matching (inhabited ins) (inhabited outs) (links ins outs) := by
  fun_induction links ins outs with
  | case1 | case5 | case6 => exact matching_leftover hi ho
  | case2 i ins o b outs hpos ih =>
    obtain ⟨hb, hins⟩ := List.forall_mem_cons.1 hi
    have hzero : b ≠ 0 := fun h => hpos (.inl h)
    have hlarge := Nat.one_lt_iff_ne_zero_and_ne_one.2 ⟨hzero, hb⟩
    rw [inhabited_cons hzero, inhabited_cons hzero]
    exact .step hlarge (Nat.mul_one b) (Nat.mul_one b) (ih hins (List.forall_mem_cons.1 ho).2)
  | case3 i a ins o b outs hpos hne hmod ih =>
    obtain ⟨ha, hins⟩ := List.forall_mem_cons.1 hi
    obtain ⟨hb, houts⟩ := List.forall_mem_cons.1 ho
    obtain ⟨hazero, hbzero⟩ := not_or.1 hpos
    obtain ⟨hquotient, hmul⟩ := one_lt_div hazero hne hmod
    have hrest := ih (List.forall_mem_cons.2 ⟨Nat.ne_of_gt hquotient, hins⟩) houts
    rw [inhabited_cons (by omega), ← cut_of_lt hquotient] at hrest
    rw [inhabited_cons hazero, inhabited_cons hbzero]
    exact .step (Nat.one_lt_iff_ne_zero_and_ne_one.2 ⟨hbzero, hb⟩) hmul (Nat.mul_one b) hrest
  | case4 i a ins o b outs hpos hne _ hmod ih =>
    obtain ⟨ha, hins⟩ := List.forall_mem_cons.1 hi
    obtain ⟨hb, houts⟩ := List.forall_mem_cons.1 ho
    obtain ⟨hazero, hbzero⟩ := not_or.1 hpos
    obtain ⟨hquotient, hmul⟩ := one_lt_div hbzero (Ne.symm hne) hmod
    have hrest := ih hins (List.forall_mem_cons.2 ⟨Nat.ne_of_gt hquotient, houts⟩)
    rw [inhabited_cons (by omega), ← cut_of_lt hquotient] at hrest
    rw [inhabited_cons hazero, inhabited_cons hbzero]
    exact .step (Nat.one_lt_iff_ne_zero_and_ne_one.2 ⟨hazero, ha⟩) (Nat.mul_one a) hmul hrest

namespace Matching

theorem one_lt_size (h : Matching ins outs ls) : ∀ l ∈ ls, 1 < l.size := by
  induction h with
  | @stop ins outs large =>
    refine fun l hl => (List.mem_append.1 hl).elim (fun hl => ?_) fun hl => ?_ <;>
      obtain ⟨q, hq, rfl⟩ := List.mem_map.1 hl
    · exact large .operand q (List.mem_filter.1 hq).1
    · exact large .result q (List.mem_filter.1 hq).1
  | link large _ ih => exact List.forall_mem_cons.2 ⟨large, ih⟩

/-- The links take up the dimensions of either side. -/
theorem span_eq_extent (h : Matching ins outs ls) (side : Side) (p : Nat → Bool) :
    span side p ls = extent p (dimsAt ins outs side) := by
  induction h with
  | @stop ins outs large =>
    have hkept : ∀ side, (dimsAt ins outs side).filter (fun q => 1 < q.2) = dimsAt ins outs side :=
      fun side => List.filter_eq_self.2 fun q hq => decide_eq_true (large side q hq)
    have hins := hkept .operand
    have houts := hkept .result
    simp only [dimsAt] at hins houts
    rw [leftover, hins, houts, span_append]
    cases side with
    | operand =>
      rw [span_map (fun _ => rfl) (fun _ => rfl), span_map_of_none fun _ => rfl, Nat.mul_one]
      rfl
    | result =>
      rw [span_map_of_none fun _ => rfl, span_map (fun _ => rfl) (fun _ => rfl), Nat.one_mul]
      rfl
  | @link i o n x y ins outs ls large _ ih =>
    have hfirst : ∀ {dim left : Nat} {dims : List (Nat × Nat)},
        (if p dim then n else 1) * extent p (cut dim left dims)
          = extent p ((dim, n * left) :: dims) := by
      intro dim left dims
      rw [extent_cut, extent_cons, ← Nat.mul_assoc]
      cases p dim <;> simp
    rw [span_cons, ih]
    cases side <;> exact hfirst

/-- Behind a link of both sides, as much is left of the input as of the output. -/
theorem span_eq_span (h : Matching ins outs ls)
    (htotal : extent (fun _ => true) ins = extent (fun _ => true) outs)
    (hls : ls = front ++ l :: back) (hi : l.input.isSome = true) (ho : l.output.isSome = true) :
    span .operand (fun _ => true) back = span .result (fun _ => true) back := by
  induction h generalizing front with
  | @stop ins outs =>
    -- the dimensions that are left are in links of one side
    have hmem : l ∈ leftover ins outs := by rw [hls]; simp
    rcases List.mem_append.1 hmem with hl | hl <;> obtain ⟨q, -, rfl⟩ := List.mem_map.1 hl
    · cases ho
    · cases hi
  | @link i o n x y ins outs ls large hrest ih =>
    have hnext : extent (fun _ => true) (cut i x ins) = extent (fun _ => true) (cut o y outs) := by
      rw [extent_cons, extent_cons] at htotal
      rw [extent_cut, extent_cut]
      simp only [if_true, Nat.mul_assoc] at htotal ⊢
      exact Nat.eq_of_mul_eq_mul_left (Nat.lt_trans Nat.one_pos large) htotal
    cases front with
    | nil =>
      obtain ⟨-, rfl⟩ := List.cons.inj hls
      rw [hrest.span_eq_extent, hrest.span_eq_extent]
      exact hnext
    | cons first front => exact ih hnext (List.cons.inj hls).2

/-- The links take up the dimensions of either side one after the other. -/
theorem ascending (h : Matching ins outs ls) (side : Side)
    (hsorted : ((dimsAt ins outs side).map (·.1)).Pairwise (· < ·)) :
    Ascending side ls ∧
      ∀ l ∈ ls, ∀ d, l.dim side = some d → d ∈ (dimsAt ins outs side).map (·.1) := by
  induction h with
  | @stop ins outs =>
    have hkept : ∀ {dims : List (Nat × Nat)}, (dims.map (·.1)).Pairwise (· < ·) →
        (dims.filter fun q => 1 < q.2).Pairwise fun q q' => q.1 ≤ q'.1 := fun hdims =>
      ((List.pairwise_map.1 hdims).imp fun hlt => Nat.le_of_lt hlt).sublist List.filter_sublist
    have hone : ∀ l ∈ leftover ins outs, ∀ d, l.dim side = some d →
        d ∈ (dimsAt ins outs side).map (·.1) := by
      intro l hl d hd
      rcases List.mem_append.1 hl with hl | hl <;> obtain ⟨q, hq, rfl⟩ := List.mem_map.1 hl <;>
        cases side <;> cases hd <;> exact List.mem_map_of_mem (List.mem_filter.1 hq).1
    refine ⟨?_, hone⟩
    rw [Ascending, leftover, List.pairwise_append, List.pairwise_map, List.pairwise_map]
    cases side with
    | operand =>
      refine ⟨(hkept hsorted).imp fun hle d d' hd hd' => ?_, List.pairwise_of_forall nofun,
        fun _ _ l' hl' => ?_⟩
      · cases hd
        cases hd'
        exact hle
      · obtain ⟨q, -, rfl⟩ := List.mem_map.1 hl'
        nofun
    | result =>
      refine ⟨List.pairwise_of_forall nofun, (hkept hsorted).imp fun hle d d' hd hd' => ?_,
        fun l hl => ?_⟩
      · cases hd
        cases hd'
        exact hle
      · obtain ⟨q, -, rfl⟩ := List.mem_map.1 hl
        nofun
  | @link i o n x y ins outs ls large hrest ih =>
    obtain ⟨first, rest, hfirst, hdims⟩ : ∃ first rest,
        (⟨some i, some o, n⟩ : Link).dim side = some first ∧
        (dimsAt ((i, n * x) :: ins) ((o, n * y) :: outs) side).map (·.1) = first :: rest := by
      cases side <;> exact ⟨_, _, rfl, rfl⟩
    have hcut : ((dimsAt (cut i x ins) (cut o y outs) side).map (·.1)).Sublist
        ((dimsAt ((i, n * x) :: ins) ((o, n * y) :: outs) side).map (·.1)) := by
      cases side <;> exact sublist_cut
    obtain ⟨hascending, hmem⟩ := ih (hsorted.sublist hcut)
    rw [hdims] at hcut hsorted ⊢
    have hmem : ∀ l ∈ ls, ∀ d, l.dim side = some d → d ∈ first :: rest :=
      fun l hl d hd => hcut.subset (hmem l hl d hd)
    refine ⟨List.pairwise_cons.2 ⟨fun l hl d d' hd hd' => ?_, hascending⟩,
      List.forall_mem_cons.2 ⟨fun d hd => ?_, hmem⟩⟩ <;> cases hfirst.symm.trans hd
    · rcases List.mem_cons.1 (hmem l hl d' hd') with rfl | hlater
      · exact Nat.le_refl _
      · exact Nat.le_of_lt ((List.pairwise_cons.1 hsorted).1 d' hlater)
    · exact List.mem_cons_self

end Matching

/-- Links that do not go below a dimension go to it or above it. -/
theorem span_mul_span (h : ∀ l ∈ ls, ∀ e, l.dim side = some e → d ≤ e) :
    span side (fun e => d < e) ls * span side (fun e => e = d) ls
      = span side (fun _ => true) ls := by
  induction ls with
  | nil => rfl
  | cons l ls ih =>
    obtain ⟨hl, hls⟩ := List.forall_mem_cons.1 h
    rw [span_cons, span_cons, span_cons, Nat.mul_mul_mul_comm, ih hls]
    congr 1
    cases hdim : l.dim side with
    | none => rfl
    | some e =>
      rcases Nat.lt_or_eq_of_le (hl e hdim) with hlt | rfl
      · simp [hlt, Nat.ne_of_gt hlt]
      · simp

/-- What is behind a link on a side are the later links to its dimension and the dimensions behind
it. -/
theorem Ascending.span_mul_span (h : Ascending side (front ++ l :: back))
    (hd : l.dim side = some d) :
    span side (fun e => d < e) (front ++ l :: back) * span side (fun e => e = d) back
      = span side (fun _ => true) back := by
  obtain ⟨-, hback, hfront⟩ := List.pairwise_append.1 h
  have hbefore : ∀ l' ∈ front ++ [l], (l'.dim side).any (fun e => d < e) = false := by
    intro l' hl'
    cases hdim : l'.dim side with
    | none => rfl
    | some e =>
      have hle : e ≤ d := by
        rcases List.mem_append.1 hl' with hl' | hl'
        · exact hfront l' hl' l List.mem_cons_self e d hdim hd
        · obtain rfl := List.mem_singleton.1 hl'
          exact Nat.le_of_eq (Option.some.inj (hdim.symm.trans hd))
      simpa using hle
  rw [List.append_cons, span_append, span_eq_one hbefore, Nat.one_mul]
  exact Reshape.span_mul_span fun l' hl' e he => (List.pairwise_cons.1 hback).1 l' hl' d e hd he

section Shape

variable {shape : Shape} {k size : Nat}

/-- The dimensions of size other than 1, counted from `k` on. -/
def dimsFrom (k : Nat) (shape : Shape) : List (Nat × Nat) :=
  ((shape.zipIdx k).map Prod.swap).filter fun q => q.2 ≠ 1

theorem dimsOf_eq (shape : Shape) : dimsOf shape = dimsFrom 0 shape := by
  rw [dimsOf, dimsFrom, List.mapIdx_eq_zipIdx_map]
  rfl

theorem dimsFrom_cons (k size : Nat) (shape : Shape) : dimsFrom k (size :: shape)
    = if size = 1 then dimsFrom (k + 1) shape else (k, size) :: dimsFrom (k + 1) shape := by
  by_cases h : size = 1 <;> simp [dimsFrom, h]

theorem extent_dimsFrom_cons (p : Nat → Bool) (k size : Nat) (shape : Shape) :
    extent p (dimsFrom k (size :: shape))
      = (if p k then size else 1) * extent p (dimsFrom (k + 1) shape) := by
  rw [dimsFrom_cons]
  split
  · rename_i hone
    rw [hone, ite_self, Nat.one_mul]
  · exact extent_cons p (k, size) _

theorem le_of_mem_dimsFrom {q : Nat × Nat} (h : q ∈ dimsFrom k shape) : k ≤ q.1 := by
  obtain ⟨x, hx, rfl⟩ := List.mem_map.1 (List.mem_filter.1 h).1
  exact (List.mem_zipIdx hx).1

theorem sorted_dimsFrom (k : Nat) (shape : Shape) :
    ((dimsFrom k shape).map (·.1)).Pairwise (· < ·) := by
  induction shape generalizing k with
  | nil => exact .nil
  | cons size shape ih =>
    rw [dimsFrom_cons]
    split
    · exact ih (k + 1)
    · exact List.pairwise_cons.2 ⟨List.forall_mem_map.2 fun _ hq => le_of_mem_dimsFrom hq,
        ih (k + 1)⟩

/-- The dimensions from one on. -/
theorem extent_dimsFrom_le (k d : Nat) (shape : Shape) :
    extent (fun e => d ≤ e) (dimsFrom k shape) = Sizes.product (shape.drop (d - k)) := by
  induction shape generalizing k with
  | nil => simp [dimsFrom]
  | cons size shape ih =>
    rw [extent_dimsFrom_cons, ih]
    by_cases hle : d ≤ k
    · rw [Nat.sub_eq_zero_of_le hle, Nat.sub_eq_zero_of_le (Nat.le_succ_of_le hle)]
      simp [hle]
    · obtain ⟨n, rfl⟩ := Nat.exists_eq_add_of_lt (Nat.not_le.1 hle)
      rw [show k + n + 1 - k = n + 1 by omega, show k + n + 1 - (k + 1) = n by omega]
      simp [hle]

theorem extent_dimsFrom_eq (k d : Nat) (shape : Shape) :
    extent (fun e => e = k + d) (dimsFrom k shape) = shape.getD d 1 := by
  induction shape generalizing k d with
  | nil => simp [dimsFrom]
  | cons size shape ih =>
    rw [extent_dimsFrom_cons]
    cases d with
    | zero =>
      rw [extent_eq_one fun q hq => decide_eq_false (Nat.ne_of_gt (le_of_mem_dimsFrom hq))]
      simp
    | succ d =>
      have hnext := ih (k + 1) d
      rw [Nat.add_assoc, Nat.add_comm 1] at hnext
      rw [hnext]
      simp

/-- The shape with 1 in place of each size 0. -/
def raised (shape : Shape) : Shape := shape.map (max 1)

theorem raised_eq_self (hpos : ∀ size ∈ shape, 0 < size) : raised shape = shape := by
  have hsame : shape.map (max 1) = shape.map id :=
    List.map_congr_left fun size hsize => Nat.max_eq_right (hpos size hsize)
  exact hsame.trans (List.map_id shape)

theorem dimsFrom_raised (k : Nat) (shape : Shape) :
    dimsFrom k (raised shape) = inhabited (dimsFrom k shape) := by
  induction shape generalizing k with
  | nil => rfl
  | cons size shape ih =>
    have hcons : raised (size :: shape) = max 1 size :: raised shape := rfl
    rw [hcons, dimsFrom_cons, dimsFrom_cons, ih]
    by_cases hzero : size = 0
    · simp [hzero, inhabited]
    · rw [Nat.max_eq_right (Nat.one_le_iff_ne_zero.2 hzero)]
      by_cases hone : size = 1 <;> simp [hone, hzero, inhabited]

theorem ne_one_of_mem_dimsFrom : ∀ q ∈ dimsFrom k shape, q.2 ≠ 1 := fun q hq => by
  simpa using (List.mem_filter.1 hq).2

/-- The links of a reshape match the dimensions of size above 1. -/
theorem matching_raised (input output : Shape) : Matching (dimsFrom 0 (raised input))
    (dimsFrom 0 (raised output)) (links (dimsOf input) (dimsOf output)) := by
  rw [dimsFrom_raised, dimsFrom_raised, dimsOf_eq, dimsOf_eq]
  exact matching_links ne_one_of_mem_dimsFrom ne_one_of_mem_dimsFrom

theorem matching_shapes {input output : Shape} (hi : ∀ size ∈ input, 0 < size)
    (ho : ∀ size ∈ output, 0 < size) :
    Matching (dimsFrom 0 input) (dimsFrom 0 output) (links (dimsOf input) (dimsOf output)) := by
  have hmatching := matching_raised input output
  rwa [raised_eq_self hi, raised_eq_self ho] at hmatching

end Shape

end Reshape
end MeshSharding
