import MeshSharding.Proofs.Program.Order

/-! Erasure of inserted operations. A value that was created by insertion stands for the
value at the start of its chain of operations; replacing one by the other, the inserted
operations can be dropped. -/
namespace MeshSharding
namespace Program

/-- The operation has a result with a number of at least `n`. -/
def creates (n : Nat) (o : Operation) : Bool := o.results.any fun a => n ≤ a

/-- What values stand for behind an operation: those it creates stand for what its operand
stands for. -/
def follow (n : Nat) (root : Nat → Nat) (o : Operation) (a : Nat) : Nat :=
  if n ≤ a ∧ a ∈ o.results then root (o.operands.headD a) else root a

/-- What values stand for behind all operations. -/
def rootOf (n : Nat) (operations : List Operation) : Nat → Nat :=
  operations.foldl (follow n) id

def renamed (root : Nat → Nat) (o : Operation) : Operation :=
  { o with operands := o.operands.map root }

/-- The operations without those that create values, over the values that the others stand
for. -/
def erased (n : Nat) (operations : List Operation) : List Operation :=
  (operations.filter fun o => !creates n o).map (renamed (rootOf n operations))

/-- The operation creates one value, below `bound`, that stands for its only operand. -/
structure Copies (n bound : Nat) (root : Nat → Nat) (o : Operation) (a b : Nat) : Prop where
  operands : o.operands = [a]
  results : o.results = [b]
  older : a < b
  created : n ≤ b
  lt : b < bound
  same : root b = root a

variable {n bound : Nat} {root root' : Nat → Nat} {o : Operation} {a b : Nat}

theorem Copies.mono (h : Copies n bound root o a b) {bound' : Nat} (hb : bound ≤ bound')
    (hroot : ∀ v < bound, root' v = root v) : Copies n bound' root' o a b where
  operands := h.operands
  results := h.results
  older := h.older
  created := h.created
  lt := Nat.lt_of_lt_of_le h.lt hb
  same := by rw [hroot b h.lt, hroot a (Nat.lt_trans h.older h.lt), h.same]

theorem Copies.creates (h : Copies n bound root o a b) : creates n o = true := by
  simp [Program.creates, h.results, h.created]

theorem creates_eq_false_iff : creates n o = false ↔ ∀ a ∈ o.results, a < n := by
  simp [creates]

/-- If all created values are copies, each value stands for its root. -/
theorem foldl_follow_eq {known : List Nat} {operations : List Operation} {now : Nat → Nat}
    (hroot : ∀ v < n, root v = v)
    (hcopies : ∀ o ∈ operations, creates n o = true → ∃ a b, Copies n bound root o a b)
    (hordered : UsesEarlier known operations) (hnow : ∀ v < n, now v = v)
    (hknown : ∀ v ∈ known, now v = root v) :
    ∀ v ∈ known ++ operations.flatMap (·.results),
      operations.foldl (follow n) now v = root v := by
  induction operations generalizing known now with
  | nil => simpa using hknown
  | cons o rest ih =>
    rw [List.foldl_cons, List.flatMap_cons, ← List.append_assoc]
    refine ih (fun o' ho' => hcopies o' (List.mem_cons_of_mem _ ho')) hordered.2
      (fun v hv => ?_) fun v hv => ?_
    · rw [follow, if_neg (by omega), hnow v hv]
    · by_cases hc : creates n o = true
      · obtain ⟨a, b, hcopy⟩ := hcopies o (by simp) hc
        have hstart : now a = root a := hknown a (hordered.1 (by simp [hcopy.operands]))
        by_cases hnew : n ≤ v ∧ v ∈ o.results
        · have hb : v = b := by simpa [hcopy.results] using hnew.2
          rw [follow, if_pos hnew, hcopy.operands, List.headD_cons, hstart, hb, hcopy.same]
        · rw [follow, if_neg hnew]
          rcases List.mem_append.1 hv with hv | hv
          · exact hknown v hv
          · have hlt : v < n := Nat.lt_of_not_le fun hge => hnew ⟨hge, hv⟩
            exact (hnow v hlt).trans (hroot v hlt).symm
      · have hlt := creates_eq_false_iff.1 (by simpa using hc)
        rw [follow, if_neg fun h => by have := hlt v h.2; omega]
        rcases List.mem_append.1 hv with hv | hv
        · exact hknown v hv
        · exact (hnow v (hlt v hv)).trans (hroot v (hlt v hv)).symm

theorem rootOf_eq {known : List Nat} {operations : List Operation}
    (hroot : ∀ v < n, root v = v) (hknown : ∀ v ∈ known, v < n)
    (hcopies : ∀ o ∈ operations, creates n o = true → ∃ a b, Copies n bound root o a b)
    (hordered : UsesEarlier known operations) {o : Operation} (ho : o ∈ operations) {a : Nat}
    (ha : a ∈ o.operands) : rootOf n operations a = root a :=
  foldl_follow_eq hroot hcopies hordered (fun _ _ => rfl)
    (fun v hv => (hroot v (hknown v hv)).symm) a (hordered.operands_subset ho ha)

section rules

theorem rootOf_map_withoutRule (operations : List Operation) :
    rootOf n (operations.map Operation.withoutRule) = rootOf n operations := by
  rw [rootOf, List.foldl_map]
  rfl

/-- Erasure takes no account of rules. -/
theorem erased_map_withoutRule (operations : List Operation) :
    erased n (operations.map Operation.withoutRule)
      = (erased n operations).map Operation.withoutRule := by
  rw [erased, rootOf_map_withoutRule, List.filter_map, List.map_map, erased, List.map_map]
  rfl

end rules

end Program
end MeshSharding
