import MeshSharding.Error

/-! Device meshes: an ordered list of named axes whose devices are numbered in
row-major order, by default with the numbers as their ids. -/
namespace MeshSharding

/-- The first element that equals an earlier one or one of `seen`. -/
def firstRepeat {α : Type} [DecidableEq α] (seen : List α) : List α → Option α
  | [] => none
  | a :: rest => if a ∈ seen then some a else firstRepeat (a :: seen) rest

theorem firstRepeat_eq_none_iff {α : Type} [DecidableEq α] (l seen : List α) :
    firstRepeat seen l = none ↔ l.Nodup ∧ ∀ a ∈ l, a ∉ seen := by
  induction l generalizing seen with
  | nil => simp [firstRepeat]
  | cons a rest ih =>
    by_cases h : a ∈ seen
    · simp [firstRepeat, h]
    · simp only [firstRepeat, h, if_false, ih, List.nodup_cons, List.mem_cons]
      grind

structure MeshAxis where
  name : String
  size : Nat
  name_ne_empty : name ≠ ""
  size_pos : 0 < size
deriving DecidableEq

namespace MeshAxis

def create (name : String) (size : Nat) : Except Error MeshAxis :=
  if hn : name = "" then .error .emptyAxisName
  else if hs : size = 0 then .error (.emptyAxis name)
  else .ok ⟨name, size, hn, Nat.pos_of_ne_zero hs⟩

end MeshAxis

structure Mesh where
  axes : List MeshAxis
  /-- The ids of the devices in row-major order, if they are not `0, 1, …`. -/
  deviceIds : Option (List Int64)
  names_nodup : (axes.map (·.name)).Nodup
  deviceIds_length : ∀ ids, deviceIds = some ids → ids.length = Sizes.product (axes.map (·.size))
  deviceIds_nodup : ∀ ids, deviceIds = some ids → ids.Nodup
deriving DecidableEq

namespace Mesh

/-- The number of places of the mesh, whether or not it fits a word. -/
def places (m : Mesh) : Nat := Sizes.product (m.axes.map (·.size))

def countOf (axes : List MeshAxis) : Except Error Nat :=
  let count := Sizes.product (axes.map (·.size))
  if count < wordBound then .ok count
  else .error (.overflow "computing mesh device count from axis sizes")

def deviceCount (m : Mesh) : Except Error Nat := countOf m.axes

/-- A mesh whose devices have their row-major numbers as ids. -/
def ofAxes (axes : List MeshAxis) : Except Error Mesh :=
  match h : firstRepeat [] (axes.map (·.name)) with
  | some name => .error (.duplicateAxisName name)
  | none =>
    .ok ⟨axes, none, ((firstRepeat_eq_none_iff _ _).1 h).1, by simp, by simp⟩

/-- A mesh whose devices have the given ids, in row-major order. -/
def ofAxesAndDevices (axes : List MeshAxis) (ids : List Int64) : Except Error Mesh :=
  match h : firstRepeat [] (axes.map (·.name)) with
  | some name => .error (.duplicateAxisName name)
  | none =>
    match countOf axes with
    | .error e => .error e
    | .ok _ =>
      if hl : ids.length = Sizes.product (axes.map (·.size)) then
        match hd : firstRepeat [] ids with
        | some id => .error (.duplicateDevice id)
        | none =>
          .ok ⟨axes, some ids, ((firstRepeat_eq_none_iff _ _).1 h).1,
            fun _ e => by cases e; exact hl,
            fun _ e => by cases e; exact ((firstRepeat_eq_none_iff _ _).1 hd).1⟩
      else .error (.deviceCount (Sizes.product (axes.map (·.size))) ids.length)

/-- The axes `x` and `y` over rows and columns of devices. -/
def grid (rows columns : Nat) (hr : 0 < rows) (hc : 0 < columns) : Mesh where
  axes := [⟨"x", rows, by decide, hr⟩, ⟨"y", columns, by decide, hc⟩]
  deviceIds := none
  names_nodup := by simp
  deviceIds_length := by simp
  deviceIds_nodup := by simp

/-- The id at a row-major number, which need not be the number of a place. -/
def deviceAt (m : Mesh) (index : Nat) : Int64 :=
  match m.deviceIds with
  | some ids => ids.getD index 0
  | none => Int64.ofNat index

/-- Of a mesh with its own ids every place has one; otherwise the number of places
has to fit a word and the row-major number a signed word. -/
def deviceId (m : Mesh) (index : Nat) : Option Int64 :=
  match m.deviceIds with
  | some ids => ids[index]?
  | none =>
    if m.places < wordBound ∧ index < m.places ∧ index < signedBound then
      some (m.deviceAt index)
    else none

def axisIndex? (m : Mesh) (name : String) : Option Nat :=
  m.axes.findIdx? fun axis => axis.name = name

def axisSize? (m : Mesh) (name : String) : Option Nat :=
  (m.axes.find? fun axis => axis.name = name).map (·.size)

/-- The digits of a row-major number, one for each size. -/
def digits : List Nat → Nat → List Nat
  | [], _ => []
  | size :: rest, index => index / Sizes.product rest % size :: digits rest index

def coordinate (m : Mesh) (index : Nat) : List Nat := digits (m.axes.map (·.size)) index

def axisText (axis : MeshAxis) : String := Text.quoted axis.name ++ s!"={axis.size}"

def devicesText : Option (List Int64) → String
  | none => ""
  | some ids => ", device_ids=" ++ Text.brackets (Text.commas (ids.map toString))

def literal (m : Mesh) : String :=
  "<" ++ Text.brackets (Text.commas (m.axes.map axisText)) ++ devicesText m.deviceIds ++ ">"

@[simp] theorem digits_length (sizes : List Nat) (index : Nat) :
    (digits sizes index).length = sizes.length := by
  induction sizes <;> simp_all [digits]

@[simp] theorem coordinate_length (m : Mesh) (index : Nat) :
    (m.coordinate index).length = m.axes.length := by simp [coordinate]

theorem axisSize?_pos {m : Mesh} {name : String} {size : Nat}
    (h : m.axisSize? name = some size) : 0 < size := by
  obtain ⟨axis, _, rfl⟩ := Option.map_eq_some_iff.1 h
  exact axis.size_pos

end Mesh

namespace AxisRef

/-- An axis that the mesh does not have counts as one of size 1. -/
def fullSize (a : AxisRef) (m : Mesh) : Nat := (m.axisSize? a.name).getD 1

def size (a : AxisRef) (m : Mesh) : Nat :=
  match a.window with
  | some w => w.size
  | none => a.fullSize m

/-- The size of the part of the axis up to the minor end of the reference. -/
def nextPreSize (a : AxisRef) (m : Mesh) : Nat := a.preSize * a.size m

/-- A window has size above 1, ends at a divisor of the size of its axis, and is not
the whole axis. -/
def validate (a : AxisRef) (m : Mesh) : Except Error Unit :=
  match m.axisSize? a.name with
  | none => .error (.unknownAxis a.name)
  | some axisSize =>
    match a.window with
    | none => .ok ()
    | some w =>
      if 1 ≤ w.preSize ∧ 1 < w.size ∧ axisSize % (w.preSize * w.size) = 0
          ∧ w.preSize * w.size ≤ axisSize ∧ ¬ (w.preSize = 1 ∧ w.size = axisSize) then .ok ()
      else .error (.invalidWindow a.name w axisSize)

def contains (a b : AxisRef) (m : Mesh) : Bool :=
  a.name = b.name ∧ a.preSize ≤ b.preSize ∧ b.nextPreSize m ≤ a.nextPreSize m

def overlaps (a b : AxisRef) (m : Mesh) : Bool :=
  a.name = b.name ∧ a.preSize < b.nextPreSize m ∧ b.preSize < a.nextPreSize m

/-- The first reference is a major part of the second one. -/
def isPrefixOf (a b : AxisRef) (m : Mesh) : Bool :=
  a.name = b.name ∧ a.preSize = b.preSize ∧ a.nextPreSize m ≤ b.nextPreSize m

/-- The second reference begins where the first one ends. -/
def canMerge (a b : AxisRef) (m : Mesh) : Bool :=
  a.name = b.name ∧ a.nextPreSize m = b.preSize

def merge (a b : AxisRef) (m : Mesh) : AxisRef :=
  ofWindow a.name a.preSize (a.size m * b.size m) (a.fullSize m)

def greatestCommonPrefix (a b : AxisRef) (m : Mesh) : Option AxisRef :=
  if a.name = b.name ∧ a.preSize = b.preSize then
    some (ofWindow a.name a.preSize (min (a.size m) (b.size m)) (a.fullSize m))
  else none

/-- The largest major part of the first reference that is free of the second one. -/
def prefixWithoutOverlap (a b : AxisRef) (m : Mesh) : Option AxisRef :=
  if a.overlaps b m then
    if b.preSize ≤ a.preSize ∨ b.preSize % a.preSize ≠ 0 then none
    else some (ofWindow a.name a.preSize (b.preSize / a.preSize) (a.fullSize m))
  else some a

/-- Cuts off a major part of a size strictly between 1 and that of the reference. -/
def split (a : AxisRef) (majorSize : Nat) (m : Mesh) : Option (AxisRef × AxisRef) :=
  if majorSize ≤ 1 ∨ a.size m ≤ majorSize ∨ a.size m % majorSize ≠ 0 then none
  else some
    (ofWindow a.name a.preSize majorSize (a.fullSize m),
     ofWindow a.name (a.preSize * majorSize) (a.size m / majorSize) (a.fullSize m))

/-- The place of the axis in the mesh; an axis that the mesh does not have is last. -/
def place (a : AxisRef) (m : Mesh) : Nat := (m.axisIndex? a.name).getD m.axes.length

/-- References are ordered by the place of their axis and then by their window. -/
def compare (a b : AxisRef) (m : Mesh) : Ordering :=
  (Ord.compare (a.place m) (b.place m)).then <|
  (Ord.compare a.name b.name).then <|
  (Ord.compare a.preSize b.preSize).then <|
  Ord.compare (a.size m) (b.size m)

@[simp] theorem size_sub (name : String) (p s : Nat) (m : Mesh) :
    (sub name p s).size m = s := rfl

@[simp] theorem size_full (name : String) (m : Mesh) :
    (full name).size m = (full name).fullSize m := rfl

theorem fullSize_pos (a : AxisRef) (m : Mesh) : 0 < a.fullSize m := by
  unfold fullSize
  cases h : m.axisSize? a.name with
  | none => simp
  | some n => simpa using Mesh.axisSize?_pos h

theorem fullSize_congr {a b : AxisRef} (m : Mesh) (h : a.name = b.name) :
    a.fullSize m = b.fullSize m := by simp [fullSize, h]

/-- Writing a window as a full axis keeps its size. -/
theorem ofWindow_size (a : AxisRef) (m : Mesh) (p s : Nat) :
    (ofWindow a.name p s (a.fullSize m)).size m = s := by
  unfold ofWindow; split
  · rename_i h; rw [size_full, h.2]; exact fullSize_congr m rfl
  · simp

theorem ofWindow_nextPreSize (a : AxisRef) (m : Mesh) (p s : Nat) :
    (ofWindow a.name p s (a.fullSize m)).nextPreSize m = p * s := by
  simp [nextPreSize, ofWindow_size]

end AxisRef
end MeshSharding
