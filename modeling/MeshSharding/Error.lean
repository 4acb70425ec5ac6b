import MeshSharding.Collective
import MeshSharding.Rule

/-! The causes for which an operation of the library has no answer, and the one place
where they are put into words. -/
namespace MeshSharding

/-- The part of one tensor dimension from `start` up to, and without, `stop`. -/
structure Slice where
  start : Nat
  stop : Nat
deriving DecidableEq

namespace Slice

def text (s : Slice) : String :=
  "ShardSlice \x7b start: " ++ s!"{s.start}" ++ ", end: " ++ s!"{s.stop}" ++ " \x7d"

end Slice

/-- A step that has no value for its arguments. -/
inductive Fault
  | divisionByZero
  | indexOutOfRange
  /-- A range that ends before it begins. -/
  | reversedRange
  | outOfMemory
  /-- The counter of the steps of one run is a 64-bit word. -/
  | tooManySteps
deriving DecidableEq

inductive AttributeDefect
  | missing
  | notInteger
  | negativeInteger
  | notIntegers
  | negativeIntegers
deriving DecidableEq

namespace AttributeDefect

def message : AttributeDefect → String
  | missing => "missing attribute"
  | notInteger => "expected an integer"
  | negativeInteger => "expected a non-negative integer"
  | notIntegers => "expected an integer array"
  | negativeIntegers => "expected non-negative integers"

end AttributeDefect

inductive RuleDefect
  | mappingCount (side : Side) (expected actual : Nat)
  | mappingRank (tensor : TensorRef) (rank mappingRank : Nat)
  | unmapped (tensor : TensorRef) (dim : Nat)
  | unknownFactor (factor : Nat)
  | repeatedFactor (tensor : TensorRef) (factor : Nat)
  | dimSize (tensor : TensorRef) (dim product size : Nat)
  | tensorCounts (operation : String) (expected actual : Nat × Nat)
  | badAttribute (name : String) (defect : AttributeDefect)
  | identityShapes
  | broadcastDimensions
  | concatenatesNothing
  | concatenationDimension
  | dotDimensions
  | padsNothing
  | reducesNothing
  | elementCount
  | transposition
deriving DecidableEq

namespace RuleDefect

def tensorText (t : TensorRef) : String := s!"{t.side.text} #{t.index}"

def message : RuleDefect → String
  | mappingCount side expected actual =>
    s!"expected {expected} {side.text} mapping(s) but got {actual}"
  | mappingRank t rank mapped =>
    s!"{tensorText t} has rank {rank} but its mapping has rank {mapped}"
  | unmapped t dim => s!"dimension #{dim} of {tensorText t} is not mapped to any factor"
  | unknownFactor factor => s!"factor index {factor} is out of range"
  | repeatedFactor t factor => s!"factor {factor} is mapped more than once in {tensorText t}"
  | dimSize t dim product size =>
    s!"factors of dimension #{dim} of {tensorText t} have total size {product}, "
      ++ s!"but the dimension has size {size}"
  | tensorCounts operation expected actual =>
    s!"'{operation}' expects {expected.1} operand(s) and {expected.2} result(s), "
      ++ s!"but got {actual.1} and {actual.2}"
  | badAttribute name defect => s!"attribute '{name}': {defect.message}"
  | identityShapes => "identity operands and results must have the same shape"
  | broadcastDimensions => "invalid 'broadcast_dimensions'"
  | concatenatesNothing => "'stablehlo.concatenate' expects at least one operand"
  | concatenationDimension => "invalid concatenation 'dimension'"
  | dotDimensions => "invalid 'stablehlo.dot_general' dimension numbers"
  | padsNothing => "pad and slice expect an operand and a result"
  | reducesNothing => "'stablehlo.reduce' expects at least one input"
  | elementCount => "reshape must preserve the number of elements"
  | transposition => "invalid transpose 'permutation'"

end RuleDefect

inductive CollectiveDefect
  | rank (expected actual : Nat)
  | notSuffix (suffix axes : List AxisRef) (dim : Nat)
  | axisInUse (axis : AxisRef) (sharding : TensorSharding)
  | moveDims (move : Move) (rank : Nat)
  | emptyMove (move : Move)
  | meshChange (source target : String)
  | shardCounts (out sharding : TensorSharding)
  | unreducedChange
  | otherTensor
  | impossible (device : Int64) (before after : List Slice)
deriving DecidableEq

namespace CollectiveDefect

def slicesText (slices : List Slice) : String :=
  Text.brackets (Text.commas (slices.map Slice.text))

def message : CollectiveDefect → String
  | rank expected actual => s!"expected {expected} dimension(s), but got {actual}"
  | notSuffix suffix axes dim =>
    s!"[{AxisList.text suffix}] is not a suffix of the axes [{AxisList.text axes}] "
      ++ s!"of dimension #{dim}"
  | axisInUse axis sharding => s!"axis {axis.text} is already used by {sharding.text}"
  | moveDims move actual => s!"invalid dimensions in {move.text} for rank {actual}"
  | emptyMove move => s!"{move.text} does not move any axes"
  | meshChange source target => s!"cannot permute from mesh '@{source}' to mesh '@{target}'"
  | shardCounts out sharding =>
    s!"{out.text} does not have the same number of shards along every dimension "
      ++ s!"as {sharding.text}"
  | unreducedChange => "unreduced axes cannot be changed"
  | otherTensor => "layouts describe different tensors or meshes"
  | impossible device before after =>
    s!"device {device} cannot go from shard {slicesText before} to shard {slicesText after}"

end CollectiveDefect

/-- Why no collectives lead from one sharding to another. -/
inductive ReshardObstacle
  | meshes (source target : String)
  | ranks (source target : Nat)
  | unreduced (source target : TensorSharding)
deriving DecidableEq

namespace ReshardObstacle

def message : ReshardObstacle → String
  | meshes source target => s!"cannot reshard from mesh '@{source}' to mesh '@{target}'"
  | ranks source target => s!"cannot reshard from rank {source} to rank {target}"
  | unreduced source target =>
    s!"cannot change the unreduced axes of {source.text} to those of {target.text}"

end ReshardObstacle

/-- Values of a program whose shardings cannot hold at the same time. -/
inductive Conflict
  | operand (operation : String) (index value : Nat) (expected : TensorSharding)
  | groupShapes (first member : Nat)
  | groupShardings (left : Nat) (leftSharding : TensorSharding) (right : Nat)
    (rightSharding : TensorSharding)
deriving DecidableEq

namespace Conflict

def message : Conflict → String
  | operand operation index value expected =>
    s!"operand #{index} (%{value}) of '{operation}' must be sharded as {expected.text}"
  | groupShapes first member =>
    s!"sharding group members %{first} and %{member} have different shapes"
  | groupShardings left leftSharding right rightSharding =>
    s!"sharding group members %{left} ({leftSharding.text}) and "
      ++ s!"%{right} ({rightSharding.text}) conflict"

end Conflict

inductive OptionDefect
  | notPair
  | unknown
  | notBool (value : String)
  | notStrategy (value : String)
  | notCount (value : String)
deriving DecidableEq

namespace OptionDefect

def message : OptionDefect → String
  | notPair => "expected a 'key=value' pair"
  | unknown => "unknown option"
  | notBool value => s!"expected 'true', 'false', '1', or '0', but got '{value}'"
  | notStrategy value => s!"expected 'basic' or 'aggressive', but got '{value}'"
  | notCount value => s!"expected a non-negative integer, but got '{value}'"

end OptionDefect

inductive DecodeDefect
  /-- The bytes are no message of the schema. -/
  | malformed
  | negative (field : String) (value : Int64)
  | factorInField (factor : Nat) (field : String) (count : Nat)
  | mappedFactor (factor count : Nat)
  | severalTypes (factor : Nat)
deriving DecidableEq

namespace DecodeDefect

def message : DecodeDefect → String
  | malformed => "malformed message"
  | negative field value => s!"field '{field}' must be non-negative, but got {value}"
  | factorInField factor field count =>
    s!"factor {factor} in '{field}' is out of range for {count} factor(s)"
  | mappedFactor factor count => s!"factor {factor} is out of range for {count} factor(s)"
  | severalTypes factor => s!"factor {factor} has more than one type"

end DecodeDefect

inductive Error
  | emptyAxisName
  | emptyAxis (name : String)
  | duplicateAxisName (name : String)
  | duplicateDevice (id : Int64)
  | deviceCount (expected actual : Nat)
  | unknownMesh (name : String)
  | unknownAxis (name : String)
  | invalidWindow (name : String) (window : Window) (axisSize : Nat)
  | axisReused (axis : AxisRef)
  | rank (sharding tensor : Nat)
  | indivisible (dim size shards : Nat)
  | incompatible (conflict : Conflict)
  | malformedRule (defect : RuleDefect)
  | unknownOperationName (name : String)
  | unsupportedReshard (obstacle : ReshardObstacle)
  | invalidCollective (collective : Collective) (defect : CollectiveDefect)
  | unknownValue (value : Nat)
  | unknownOperation (operation : Nat)
  | invalidOption (key : String) (defect : OptionDefect)
  | decode (defect : DecodeDefect)
  | dump (path reason : String)
  | overflow (context : String)
  | fault (fault : Fault)
deriving DecidableEq

namespace Fault

def message : Fault → String
  | divisionByZero => "division by zero"
  | indexOutOfRange => "index out of range"
  | reversedRange => "range start is greater than range end"
  | outOfMemory => "out of memory"
  | tooManySteps => "too many steps"

end Fault

namespace Error

def message : Error → String
  | emptyAxisName => "mesh axis names must be non-empty"
  | emptyAxis name => s!"mesh axis '{name}' must have size > 0"
  | duplicateAxisName name => s!"mesh axis '{name}' appears more than once"
  | duplicateDevice id => s!"mesh device id {id} appears more than once"
  | deviceCount expected actual =>
    s!"mesh has {actual} device(s), but axis sizes imply {expected} device(s)"
  | unknownMesh name => s!"unknown mesh '@{name}'"
  | unknownAxis name => s!"sharding references unknown mesh axis '{name}'"
  | invalidWindow name w axisSize =>
    s!"invalid sub-axis '{name}':({w.preSize}){w.size} of an axis with size {axisSize}"
  | axisReused axis =>
    s!"mesh axis region {axis.text} is used more than once in the same sharding"
  | rank sharding tensor =>
    s!"sharding rank {sharding} does not match tensor rank {tensor}"
  | indivisible dim size shards =>
    s!"axes of size {shards} do not evenly divide dimension #{dim} of size {size}"
  | incompatible conflict => s!"incompatible shardings: {conflict.message}"
  | malformedRule defect => s!"malformed sharding rule: {defect.message}"
  | unknownOperationName name => s!"no sharding rule is registered for operation '{name}'"
  | unsupportedReshard obstacle => s!"unsupported resharding: {obstacle.message}"
  | invalidCollective collective defect =>
    s!"invalid {collective.name} collective: {defect.message}"
  | unknownValue value => s!"value %{value} does not exist"
  | unknownOperation operation => s!"operation #{operation} does not exist"
  | invalidOption key defect => s!"invalid option '{key}': {defect.message}"
  | decode defect => s!"failed to decode serialized sharding record: {defect.message}"
  | dump path reason => s!"failed to dump module to '{path}': {reason}"
  | overflow context => s!"overflow while {context}"
  | fault f => f.message

end Error

/-- A computation in two steps succeeds if both steps do. -/
theorem bind_eq_ok_iff {α β : Type} {x : Except Error α} {f : α → Except Error β} {b : β} :
    x >>= f = .ok b ↔ ∃ a, x = .ok a ∧ f a = .ok b := by
  cases x <;> simp [bind, Except.bind]

/-- A run of steps keeps what each of them keeps. -/
theorem foldlM_keeps {α β : Type} {motive : β → Prop} {f : β → α → Except Error β} {l : List α}
    {b b' : β} (h : l.foldlM f b = .ok b') (hb : motive b)
    (hf : ∀ a ∈ l, ∀ b b', motive b → f b a = .ok b' → motive b') : motive b' := by
  induction l generalizing b with
  | nil =>
    cases h
    exact hb
  | cons a rest ih =>
    rw [List.foldlM_cons] at h
    obtain ⟨next, hnext, h⟩ := bind_eq_ok_iff.1 h
    exact ih h (hf a List.mem_cons_self b next hb hnext)
      fun a ha => hf a (List.mem_cons_of_mem _ ha)

/-- A list is made by steps that all succeed. -/
theorem mapM_map_eq_ok {α β γ : Type} {f : β → Except Error γ} {g : α → β} {h : α → γ} {l : List α}
    (hf : ∀ a ∈ l, f (g a) = .ok (h a)) : (l.map g).mapM f = .ok (l.map h) := by
  induction l with
  | nil => rfl
  | cons a rest ih =>
    rw [List.forall_mem_cons] at hf
    rw [List.map_cons, List.mapM_cons, hf.1, ih hf.2]
    rfl

theorem eq_ok_of_toOption {α : Type} {x : Except Error α} {a : α}
    (h : x.toOption = some a) : x = .ok a := by
  cases x with
  | error e => cases h
  | ok b => cases h; rfl

end MeshSharding
