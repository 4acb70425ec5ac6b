import MeshSharding.Mesh

/-! Lists of axis references, from major to minor: their total size, their form in which
adjacent windows are merged, and the canonical union of two lists. -/
namespace MeshSharding
namespace AxisList

def totalSize (m : Mesh) (axes : List AxisRef) : Nat := Sizes.product (axes.map (·.size m))

def mergeFrom (m : Mesh) (last : AxisRef) : List AxisRef → List AxisRef
  | [] => [last]
  | a :: rest =>
    if last.canMerge a m then mergeFrom m (last.merge a m) rest else last :: mergeFrom m a rest

/-- Replaces each run of adjacent windows by one reference. -/
def mergeAdjacent (m : Mesh) : List AxisRef → List AxisRef
  | [] => []
  | a :: rest => mergeFrom m a rest

/-- Both lists shard a dimension alike. -/
def equivalent (m : Mesh) (a b : List AxisRef) : Bool :=
  mergeAdjacent m a = mergeAdjacent m b

def overlapsAny (m : Mesh) (a : AxisRef) (axes : List AxisRef) : Bool :=
  axes.any fun b => a.overlaps b m

/-- In a list sorted by `AxisRef.compare`, takes up each reference that `last` contains
and each one with which it has a common window. -/
def absorb (m : Mesh) (last : AxisRef) : List AxisRef → List AxisRef
  | [] => [last]
  | a :: rest =>
    if last.contains a m then absorb m last rest
    else
      let stop := max (a.nextPreSize m) (last.nextPreSize m)
      if (last.overlaps a m || last.canMerge a m) ∧ stop % last.preSize = 0 then
        absorb m (.ofWindow last.name last.preSize (stop / last.preSize) (last.fullSize m)) rest
      else last :: absorb m a rest

/-- The references of both lists in mesh order, without those that others cover. -/
def combine (m : Mesh) (a b : List AxisRef) : List AxisRef :=
  match (a ++ b).mergeSort (fun x y => (x.compare y m).isLE) with
  | [] => []
  | first :: rest => absorb m first rest

@[simp] theorem totalSize_nil (m : Mesh) : totalSize m [] = 1 := rfl

@[simp] theorem totalSize_cons (m : Mesh) (a : AxisRef) (rest : List AxisRef) :
    totalSize m (a :: rest) = a.size m * totalSize m rest := by simp [totalSize]

@[simp] theorem mergeAdjacent_nil (m : Mesh) : mergeAdjacent m [] = [] := rfl

theorem totalSize_mergeFrom (m : Mesh) (last : AxisRef) (axes : List AxisRef) :
    totalSize m (mergeFrom m last axes) = last.size m * totalSize m axes := by
  induction axes generalizing last with
  | nil => simp [mergeFrom]
  | cons a rest ih =>
    unfold mergeFrom; split
    · rw [ih, AxisRef.merge, AxisRef.ofWindow_size, totalSize_cons, Nat.mul_assoc]
    · simp [ih]

/-- Merging keeps the number of shards. -/
theorem totalSize_mergeAdjacent (m : Mesh) (axes : List AxisRef) :
    totalSize m (mergeAdjacent m axes) = totalSize m axes := by
  cases axes with
  | nil => rfl
  | cons a rest => simp [mergeAdjacent, totalSize_mergeFrom]

end AxisList
end MeshSharding
