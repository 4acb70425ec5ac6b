import MeshSharding.Proofs.Collective.Checked
import MeshSharding.Proofs.Collective.Commutation
import MeshSharding.Proofs.Wire.Record

/-! Faults of collectives. The only step of a collective that may have no value is the first
remainder in the subdivision of two lists, which is taken by zero where a window ends at zero beside
one that begins elsewhere. Neither reading a window from bytes nor building it rules that out. -/
namespace MeshSharding

namespace AxisList

variable {m : Mesh} {l r axes suffix rest : List AxisRef} {bounds : List Nat} {e : Error}

/-- No window ends at zero. -/
def Positive (m : Mesh) (l : List AxisRef) : Prop := ∀ a ∈ l, 0 < a.nextPreSize m

theorem positive_append : Positive m (l ++ r) ↔ Positive m l ∧ Positive m r :=
  List.forall_mem_append

theorem Positive.mergeAdjacent (h : Positive m l) : Positive m (mergeAdjacent m l) :=
  forall_mem_mergeAdjacent h fun a b _ hb hm => by rwa [AxisRef.merge_nextPreSize hm]

/-- The atoms of a window end at boundaries above the ones that they begin at. -/
theorem Positive.atoms {all : List AxisRef} (h : Positive m l) : Positive m (atoms m all l) := by
  intro x hx
  obtain ⟨a, ha, hxa⟩ := List.mem_flatMap.1 hx
  unfold atomsOf at hxa
  split at hxa
  · rw [List.mem_singleton.1 hxa]
    exact h a ha
  · rename_i hn
    have hladder := not_mem_opaqueAxes_iff.1 hn
    rw [cutAt_eq] at hxa
    obtain ⟨step, hstep, rfl⟩ := List.mem_map.1 hxa
    have hcuts : (span (boundaries m all a.name) a.preSize (a.nextPreSize m)).Sublist
        (boundaries m all a.name) := List.filter_sublist
    have hlt : step.1 < step.2 := forall_mem_steps_iff.2
      (List.Pairwise.isChain (hladder.sorted.sublist hcuts)) step hstep
    obtain ⟨h1, h2⟩ := mem_of_mem_steps hstep
    have hdvd := hladder.dvd _ (hcuts.subset h1) _ (hcuts.subset h2) (Nat.le_of_lt hlt)
    rw [AxisRef.ofWindow_nextPreSize, Nat.mul_div_cancel' hdvd]
    omega

theorem Positive.removeSuffix (haxes : Positive m axes)
    (h : removeSuffix m axes suffix = .ok (some rest)) : Positive m rest := by
  obtain ⟨-, front, hfront, rfl⟩ := exists_of_removeSuffix h
  have hatoms : Positive m (AxisList.atoms m (axes ++ suffix) axes) := haxes.atoms
  rw [← hfront, positive_append] at hatoms
  exact hatoms.1.mergeAdjacent

end AxisList

namespace Collective

open AxisList

variable {m : Mesh} {c : Collective} {s t : TensorSharding} {f : Fault}

/-- The references that a gather or the moves of an exchange look for. -/
def removed : Collective → List AxisRef
  | allGather lists => lists.flatten
  | allSlice _ => []
  | allToAll moves => moves.flatMap (·.axes)
  | permute _ => []

section removal

end removal

section run

end run

section positive

end positive

section faults

end faults

end Collective
end MeshSharding
