import MeshSharding.Axis

/-! Shardings of a tensor: for each dimension the mesh axes that partition it, from
major to minor, and the axes along which the tensor is replicated or unreduced. -/
namespace MeshSharding

/-- An open dimension may receive further minor axes; a closed one is final. -/
structure DimSharding where
  axes : List AxisRef
  closed : Bool
  priority : Option Nat
deriving DecidableEq

namespace DimSharding

def ofAxes (axes : List AxisRef) (closed : Bool) : DimSharding := ⟨axes, closed, none⟩

def isEmpty (d : DimSharding) : Bool := d.axes.isEmpty

/-- A trailing question mark stands for an open dimension. -/
def body (d : DimSharding) : String :=
  if d.closed then AxisList.text d.axes
  else if d.axes.isEmpty then "?"
  else AxisList.text d.axes ++ ", ?"

def text (d : DimSharding) : String :=
  match d.priority with
  | none => Text.braces d.body
  | some p => Text.braces d.body ++ s!"p{p}"

end DimSharding

structure TensorSharding where
  meshName : String
  dims : List DimSharding
  replicated : List AxisRef
  unreduced : List AxisRef
deriving DecidableEq

namespace TensorSharding

def ofDims (meshName : String) (dims : List DimSharding) : TensorSharding :=
  ⟨meshName, dims, [], []⟩

def fullyOpen (meshName : String) (rank : Nat) : TensorSharding :=
  ofDims meshName (List.replicate rank (.ofAxes [] false))

def fullyClosed (meshName : String) (rank : Nat) : TensorSharding :=
  ofDims meshName (List.replicate rank (.ofAxes [] true))

def rank (s : TensorSharding) : Nat := s.dims.length

def isFullyReplicated (s : TensorSharding) : Bool := s.dims.all DimSharding.isEmpty

def dimAxes (s : TensorSharding) : List AxisRef := s.dims.flatMap (·.axes)

/-- Every reference the sharding claims, in the order of dimensions, replicated axes
and unreduced axes. -/
def usedAxes (s : TensorSharding) : List AxisRef := s.dimAxes ++ s.replicated ++ s.unreduced

/-- Every reference the sharding claims outside of dimension `dim`. -/
def axesOutside (s : TensorSharding) (dim : Nat) : List AxisRef :=
  (s.dims.eraseIdx dim).flatMap (·.axes) ++ s.replicated ++ s.unreduced

def mapDims (s : TensorSharding) (f : DimSharding → DimSharding) : TensorSharding :=
  { s with dims := s.dims.map f }

def modifyDim (s : TensorSharding) (dim : Nat) (f : DimSharding → DimSharding) :
    TensorSharding :=
  { s with dims := s.dims.modify dim f }

def closedLike (s : TensorSharding) : TensorSharding :=
  s.mapDims fun d => { d with closed := true }

def openLike (s : TensorSharding) : TensorSharding :=
  s.mapDims fun d => { d with closed := false }

def withoutPriorities (s : TensorSharding) : TensorSharding :=
  s.mapDims fun d => { d with priority := none }

def isFullyClosed (s : TensorSharding) : Bool := s.dims.all (·.closed)

/-- An empty list of extra axes is left out. -/
def extraText (label : String) (axes : List AxisRef) : String :=
  if axes.isEmpty then "" else s!", {label}=" ++ Text.braces (AxisList.text axes)

def text (s : TensorSharding) : String :=
  "#sdy.sharding<@" ++ Text.escape s.meshName ++ ", "
    ++ Text.brackets (Text.commas (s.dims.map DimSharding.text))
    ++ extraText "replicated" s.replicated ++ extraText "unreduced" s.unreduced ++ ">"

@[simp] theorem mapDims_meshName (s : TensorSharding) (f : DimSharding → DimSharding) :
    (s.mapDims f).meshName = s.meshName := rfl

@[simp] theorem mapDims_rank (s : TensorSharding) (f : DimSharding → DimSharding) :
    (s.mapDims f).rank = s.rank := by simp [mapDims, rank]

@[simp] theorem modifyDim_rank (s : TensorSharding) (dim : Nat)
    (f : DimSharding → DimSharding) : (s.modifyDim dim f).rank = s.rank := by
  simp [modifyDim, rank]

@[simp] theorem fullyOpen_rank (meshName : String) (n : Nat) :
    (fullyOpen meshName n).rank = n := by simp [fullyOpen, ofDims, rank]

@[simp] theorem fullyClosed_rank (meshName : String) (n : Nat) :
    (fullyClosed meshName n).rank = n := by simp [fullyClosed, ofDims, rank]

end TensorSharding
end MeshSharding
