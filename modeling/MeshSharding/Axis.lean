import MeshSharding.Text

/-! References to mesh axes. An axis of size `n` is the product of a major part, a
middle part and a minor part; a window names the middle part by the size of the part
before it and by its own size. -/
namespace MeshSharding

/-- The middle part of an axis whose more major part has size `preSize`. -/
structure Window where
  preSize : Nat
  size : Nat
deriving DecidableEq

/-- The whole axis called `name`, or a window of it. -/
structure AxisRef where
  name : String
  window : Option Window
deriving DecidableEq

namespace AxisRef

def full (name : String) : AxisRef := ⟨name, none⟩

def sub (name : String) (preSize size : Nat) : AxisRef := ⟨name, some ⟨preSize, size⟩⟩

/-- A window that covers an axis of size `axisSize` is written as the full axis. -/
def ofWindow (name : String) (preSize size axisSize : Nat) : AxisRef :=
  if preSize = 1 ∧ size = axisSize then full name else sub name preSize size

def isSub (axis : AxisRef) : Bool := axis.window.isSome

def preSize (axis : AxisRef) : Nat :=
  match axis.window with
  | none => 1
  | some w => w.preSize

def text (axis : AxisRef) : String :=
  match axis.window with
  | none => Text.quoted axis.name
  | some w => Text.quoted axis.name ++ s!":({w.preSize}){w.size}"

@[simp] theorem ofWindow_name (name : String) (p s n : Nat) :
    (ofWindow name p s n).name = name := by
  unfold ofWindow; split <;> rfl

@[simp] theorem preSize_full (name : String) : (full name).preSize = 1 := rfl

@[simp] theorem preSize_sub (name : String) (p s : Nat) : (sub name p s).preSize = p := rfl

@[simp] theorem ofWindow_preSize (name : String) (p s n : Nat) :
    (ofWindow name p s n).preSize = p := by
  unfold ofWindow; split <;> simp_all

end AxisRef

namespace AxisList

def text (axes : List AxisRef) : String := Text.commas (axes.map AxisRef.text)

end AxisList
end MeshSharding
