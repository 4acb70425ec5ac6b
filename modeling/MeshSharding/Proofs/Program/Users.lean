import MeshSharding.Program.InPlace
import MeshSharding.Proofs.Program.Linked

/-! Users of values. The pass over the operations enters each operation once for a value that it
uses, since the entries of one operation stand behind those of all earlier ones. -/
namespace MeshSharding
namespace Program

/-- Each value has a list of its users, which has them once and in program order. -/
structure ListsUsers (p : Program) (users : List (List Nat)) : Prop where
  length_eq : users.length = p.values.length
  increasing : ∀ known ∈ users, known.Pairwise (· < ·)
  mem_iff : ∀ v known, users[v]? = some known →
    ∀ i, i ∈ known ↔ ∃ o : Operation, p.operations[i]? = some o ∧ v ∈ o.operands

theorem pairwise_usersOf (p : Program) (v : Nat) : (p.usersOf v).Pairwise (· < ·) := by
  have hsublist : (p.usersOf v).Sublist (p.operations.zipIdx.map (·.2)) :=
    List.filter_sublist.map _
  rw [List.zipIdx_map_snd] at hsublist
  exact (List.pairwise_lt_range').sublist hsublist

theorem listsUsers (p : Program) : p.ListsUsers p.users where
  length_eq := by rw [users, List.length_map, List.length_range]
  increasing known hknown := by
    obtain ⟨v, -, rfl⟩ := List.mem_map.1 hknown
    exact p.pairwise_usersOf v
  mem_iff v known hknown i := by
    rw [users, List.getElem?_map] at hknown
    obtain ⟨v', hv', rfl⟩ := Option.map_eq_some_iff.1 hknown
    obtain ⟨-, rfl⟩ := List.getElem?_eq_some_iff.1 hv'
    rw [List.getElem_range, mem_usersOf]

section collect

variable {n k : Nat} {f : Nat → List Nat}

/-- The users `f` of each value, with one operation behind those of the values it uses. -/
def entered (f : Nat → List Nat) (operation : Nat) (operands : List Nat) (v : Nat) : List Nat :=
  f v ++ if v ∈ operands then [operation] else []

theorem enterUser_entered (hf : ∀ v, k ∉ f v) (seen : List Nat) {v : Nat} (hv : v < n) :
    enterUser k ((List.range n).map (entered f k seen)) v =
      .ok ((List.range n).map (entered f k (seen ++ [v]))) := by
  have hget : ((List.range n).map (entered f k seen))[v]? = some (entered f k seen v) := by
    rw [List.getElem?_map, List.getElem?_range hv, Option.map_some]
  unfold enterUser
  simp only [hget]
  by_cases hseen : v ∈ seen
  · -- an operation that uses the value twice is the last one there
    have hlast : (entered f k seen v).getLast? = some k := by
      rw [entered, if_pos hseen, List.getLast?_concat]
    have hsame : entered f k (seen ++ [v]) = entered f k seen := by
      funext w
      have : w ∈ seen ++ [v] ↔ w ∈ seen := by grind
      simp only [entered, this]
    rw [if_pos hlast, hsame]
  · have hself : entered f k seen v = f v := by
      rw [entered, if_neg hseen, List.append_nil]
    have hlast : (f v).getLast? ≠ some k := fun h => hf v (List.mem_of_getLast? h)
    rw [hself, if_neg hlast]
    refine congrArg Except.ok (List.ext_getElem (by simp) fun w _ _ => ?_)
    rw [List.getElem_set]
    by_cases hw : v = w
    · subst hw
      simp [entered]
    · have : w ∈ seen ++ [v] ↔ w ∈ seen := by grind
      simp [entered, this, hw]

theorem foldlM_enterUser (hf : ∀ v, k ∉ f v) (seen : List Nat) {operands : List Nat}
    (hlt : ∀ v ∈ operands, v < n) :
    operands.foldlM (enterUser k) ((List.range n).map (entered f k seen)) =
      .ok ((List.range n).map (entered f k (seen ++ operands))) := by
  induction operands generalizing seen with
  | nil => rw [List.append_nil]; rfl
  | cons v rest ih =>
    obtain ⟨hv, hrest⟩ := List.forall_mem_cons.1 hlt
    have h := ih (seen ++ [v]) hrest
    rw [List.append_assoc, List.singleton_append] at h
    rw [List.foldlM_cons, enterUser_entered hf seen hv]
    exact h

/-- Each operation is entered behind all that are in the table, the numbers of which are lower. -/
theorem foldlM_enterOperands {operations : List Operation}
    (hlt : ∀ o ∈ operations, ∀ v ∈ o.operands, v < n) (hf : ∀ v, ∀ i ∈ f v, i < k) :
    (operations.zipIdx k).foldlM enterOperands ((List.range n).map f) =
      .ok ((List.range n).map fun v => f v ++
        ((operations.zipIdx k).filter fun x => x.1.operands.contains v).map (·.2)) := by
  induction operations generalizing k f with
  | nil => exact congrArg Except.ok (List.map_congr_left fun v _ => (List.append_nil _).symm)
  | cons o rest ih =>
    obtain ⟨ho, hrest⟩ := List.forall_mem_cons.1 hlt
    have hfirst : enterOperands ((List.range n).map f) (o, k)
        = .ok ((List.range n).map (entered f k o.operands)) := by
      have hnew : ∀ v, k ∉ f v := fun v hv => Nat.lt_irrefl _ (hf v k hv)
      have hempty : entered f k [] = f := funext fun v => List.append_nil _
      have h := foldlM_enterUser hnew [] ho
      rwa [hempty] at h
    have hlater : ∀ v, ∀ i ∈ entered f k o.operands v, i < k + 1 := by
      intro v i hi
      have := hf v i
      grind [entered]
    rw [List.zipIdx_cons, List.foldlM_cons, hfirst]
    refine (ih hrest hlater).trans (congrArg Except.ok (List.map_congr_left fun v _ => ?_))
    by_cases hv : v ∈ o.operands <;> simp [entered, hv]

theorem collectUsers_eq {p : Program}
    (hlt : ∀ o ∈ p.operations, ∀ v ∈ o.operands, v < p.values.length) :
    p.collectUsers = .ok p.users := by
  have hstart : List.replicate p.values.length [] = (List.range p.values.length).map
      fun _ => ([] : List Nat) := by
    rw [List.map_const', List.length_range]
  rw [collectUsers, hstart, foldlM_enterOperands hlt fun _ _ hi => (List.not_mem_nil hi).elim]
  rfl

end collect

end Program
end MeshSharding
