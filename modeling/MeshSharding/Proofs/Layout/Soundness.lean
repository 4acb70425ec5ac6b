import MeshSharding.Proofs.Collective.Validity
import MeshSharding.Proofs.Layout.Balance
import MeshSharding.Proofs.Layout.Transition

/-! Soundness of collectives. Whatever references a collective is given, what it does to a
sharding is something that it can do to the shards of the devices. -/
namespace MeshSharding

open AxisList Resharding Collective

variable {m : Mesh} {c : Collective} {s t : TensorSharding} {A : Nat → List AxisRef}

namespace Collective

end Collective

namespace Layout

variable {shape : Shape}

end Layout
end MeshSharding
