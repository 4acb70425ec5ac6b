import MeshSharding.AxisList

/-! The refinement order on axis lists: a list refines its major parts, where the last
reference of the part may itself be a major part of a reference of the list. -/
namespace MeshSharding
namespace AxisList

/-- The common major part of two merged lists. -/
def meet (m : Mesh) : List AxisRef → List AxisRef → List AxisRef
  | a :: as, b :: bs =>
    if a = b then a :: meet m as bs else (a.greatestCommonPrefix b m).toList
  | _, _ => []

def commonPrefix (m : Mesh) (a b : List AxisRef) : List AxisRef :=
  meet m (mergeAdjacent m a) (mergeAdjacent m b)

def commonPrefixOfAll (m : Mesh) : List (List AxisRef) → List AxisRef
  | [] => []
  | first :: rest => rest.foldl (commonPrefix m) (mergeAdjacent m first)

/-- The first list is a major part of the second one. -/
def isPrefix (m : Mesh) (part axes : List AxisRef) : Bool :=
  commonPrefix m part axes = mergeAdjacent m part

/-- Both lists can be refined into one. -/
def compatible (m : Mesh) (a b : List AxisRef) : Bool := isPrefix m a b || isPrefix m b a

/-- What a merged list has behind a merged major part. -/
def cutMerged (m : Mesh) : List AxisRef → List AxisRef → Option (List AxisRef)
  | axes, [] => some axes
  | [], _ :: _ => none
  | a :: as, p :: ps =>
    if p = a then cutMerged m as ps
    else if ps.isEmpty ∧ p.isPrefixOf a m then
      (a.split (p.size m) m).map fun parts => parts.2 :: as
    else none

/-- What a list has behind a major part, if it has that part. -/
def stripPrefix? (m : Mesh) (axes part : List AxisRef) : Option (List AxisRef) :=
  cutMerged m (mergeAdjacent m axes) (mergeAdjacent m part)

end AxisList
end MeshSharding
