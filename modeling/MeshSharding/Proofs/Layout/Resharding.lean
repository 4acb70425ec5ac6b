import MeshSharding.Proofs.Layout.Transition
import MeshSharding.Proofs.Resharding.Correct

/-! Resharding as seen by the devices. Every sharding between the collectives is valid and
even for the tensor, every collective changes the shards of the devices in the way it may,
and in the end the devices hold the shards of the target. -/
namespace MeshSharding
namespace Resharding

open AxisList Layout

variable {m : Mesh} {shape : Shape} {source target s t : TensorSharding}
  {A B : Nat → List AxisRef} {cs : List Collective}

namespace Stage

theorem valid (h : Stage m source target s A) : s.Valid m := by
  constructor
  · rw [TensorSharding.usedAxes, allValid_append, allValid_append]
    exact ⟨⟨h.allValid_dimAxes, h.replicated⟩, h.unreduced⟩
  · intro name c
    have := h.apart name c
    simpa only [TensorSharding.usedAxes, coverage_append, h.coverage_dimAxes] using this

/-- What source and target divide evenly, every stage does. -/
theorem even (h : Stage m source target s A) (hsr : source.rank = shape.length)
    (htr : target.rank = shape.length)
    (hs : source.validateDivisibility m shape = .ok ())
    (ht : target.validateDivisibility m shape = .ok ()) : Even m shape A := by
  intro dim size hsize
  have hlt := (List.getElem?_eq_some_iff.1 hsize).1
  have hd := List.getElem?_eq_getElem (l := source.dims) (i := dim)
    (show dim < source.rank by omega)
  have he := List.getElem?_eq_getElem (l := target.dims) (i := dim)
    (show dim < target.rank by omega)
  rcases h.fits dim _ _ hd he with hdvd | hdvd
  · exact hdvd.trans (TensorSharding.dvd_of_checkDivisible hs hd hsize)
  · exact hdvd.trans (TensorSharding.dvd_of_checkDivisible ht he hsize)

theorem validateDivisibility (h : Stage m source target s A) (he : Even m shape A) :
    s.validateDivisibility m shape = .ok () := by
  refine TensorSharding.checkDivisible_eq_ok (fun d hd => ?_) fun i d size hd hsize => ?_
  · obtain ⟨dim, hdim⟩ := List.mem_iff_getElem?.1 hd
    exact h.axes dim d hdim
  · rw [h.totalSize_eq hd]
    exact he i size hsize

end Stage

end Resharding
end MeshSharding
