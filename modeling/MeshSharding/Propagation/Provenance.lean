import MeshSharding.AxisList.Prefix
import MeshSharding.Sorted

/-! The record of where the axes of shardings come from. -/
namespace MeshSharding

/-- The value whose sharding an axis was taken from. -/
structure AxisOrigin where
  axis : AxisRef
  origin : Nat
deriving DecidableEq

/-- One change of a sharding. -/
structure Edge where
  step : Nat
  operation : Nat
  source : Nat
  target : Nat
  dim : Nat
  /-- The axes that were appended. -/
  axes : List AxisRef
deriving DecidableEq

structure Provenance where
  /-- For the values of which there is a record, in increasing order. -/
  origins : List (Nat × List AxisOrigin)
  edges : List Edge
deriving DecidableEq

namespace Provenance

def empty : Provenance := ⟨[], []⟩

def originText (o : AxisOrigin) : String := s!"{o.axis.text}: %{o.origin}"

def originsLine (entry : Nat × List AxisOrigin) : String :=
  s!"%{entry.1} origins = " ++ Text.braces (Text.commas (entry.2.map originText)) ++ "\n"

def edgeLine (e : Edge) : String :=
  s!"step {e.step}: op #{e.operation} %{e.source} -> %{e.target} dim {e.dim} "
    ++ Text.brackets (AxisList.text e.axes) ++ "\n"

def text (p : Provenance) : String :=
  String.join (p.origins.map originsLine) ++ String.join (p.edges.map edgeLine)

def originsOf (p : Provenance) (value : Nat) : List AxisOrigin :=
  (Sorted.find? value p.origins).getD []

end Provenance

structure Recorder where
  recordsOrigins : Bool
  recordsEdges : Bool
  /-- The number of changes so far. -/
  step : Nat
  record : Provenance
deriving DecidableEq

namespace Recorder

def start (origins edges : Bool) : Recorder := ⟨origins, edges, 0, .empty⟩

/-- An axis of the user is its own origin, once. -/
def addOwn (value : Nat) (origins : List AxisOrigin) (a : AxisRef) : List AxisOrigin :=
  if origins.any fun o => o.axis = a then origins else origins ++ [⟨a, value⟩]

def setOrigins (r : Recorder) (value : Nat) (origins : List AxisOrigin) : Recorder :=
  { r with record := { r.record with origins := Sorted.put value origins r.record.origins } }

/-- Records that the axes of a value come from its user. -/
def addUserAxes (r : Recorder) (value : Nat) (axes : List AxisRef) : Recorder :=
  if r.recordsOrigins ∧ axes ≠ [] then
    r.setOrigins value (axes.foldl (addOwn value) (r.record.originsOf value))
  else r

/-- The origin in the source of an axis is that of the first axis there that overlaps it,
or else the source itself. -/
def inherited (m : Mesh) (source : Nat) (origins : List AxisOrigin) (a : AxisRef) :
    AxisOrigin :=
  match origins.find? fun o => o.axis.overlaps a m with
  | some o => ⟨a, o.origin⟩
  | none => ⟨a, source⟩

def addOrigins (r : Recorder) (m : Mesh) (source target : Nat) (axes : List AxisRef) :
    Recorder :=
  if r.recordsOrigins then
    r.setOrigins target (r.record.originsOf target
      ++ axes.map (inherited m source (r.record.originsOf source)))
  else r

def addEdge (r : Recorder) (e : Edge) : Recorder :=
  if r.recordsEdges then { r with record := { r.record with edges := r.record.edges ++ [e] } }
  else r

/-- Records that a dimension of `target` went from the axes `before` to `after` because of
`source`. -/
def refine (r : Recorder) (m : Mesh) (operation source target dim : Nat)
    (before after : List AxisRef) : Recorder :=
  let r := { r with step := r.step + 1 }
  let added := (AxisList.stripPrefix? m after before).getD []
  (r.addOrigins m source target added).addEdge ⟨r.step, operation, source, target, dim, added⟩

@[simp] theorem refine_step (r : Recorder) (m : Mesh) (o s t d : Nat) (b a : List AxisRef) :
    (r.refine m o s t d b a).step = r.step + 1 := by
  simp only [refine, addEdge, addOrigins, setOrigins]
  split <;> split <;> rfl

end Recorder
end MeshSharding
