import MeshSharding.Error
import MeshSharding.Mesh
import MeshSharding.Propagation.FactorStep
import MeshSharding.Text.Blank

/-! Options of propagation, and their form as words `key=value`. -/
namespace MeshSharding

structure Options where
  /-- Keeps the rules of all operations; otherwise only custom ones are kept. -/
  keepRules : Bool
  /-- Where the snapshots of the program go. -/
  dumpDirectory : Option String
  /-- Propagates no windows, and only axes that divide their factor. -/
  conservative : Bool
  recordsOrigins : Bool
  recordsEdges : Bool
  strategy : Strategy
  /-- Propagates in one pass for each heuristic; otherwise in one pass in all. -/
  byHeuristics : Bool
  /-- Makes mismatches explicit by collectives. -/
  insertsCollectives : Bool
  closesShardings : Bool
  /-- The number of steps that a pass is expected to take; it may take more. -/
  expectedSteps : Nat
deriving DecidableEq

namespace Options

def default : Options where
  keepRules := false
  dumpDirectory := none
  conservative := false
  recordsOrigins := false
  recordsEdges := false
  strategy := .aggressive
  byHeuristics := true
  insertsCollectives := true
  closesShardings := true
  expectedSteps := 100000

def invalid {α : Type} (key : String) (defect : OptionDefect) : Except Error α :=
  .error (.invalidOption key defect)

def parseBool (key value : String) : Except Error Bool :=
  if value = "true" ∨ value = "1" then .ok true
  else if value = "false" ∨ value = "0" then .ok false
  else invalid key (.notBool value)

def parseStrategy (key value : String) : Except Error Strategy :=
  if value = "basic" then .ok .basic
  else if value = "aggressive" then .ok .aggressive
  else invalid key (.notStrategy value)

/-- The value of decimal digits. -/
def digitsValue (digits : List Char) : Nat :=
  digits.foldl (fun n c => n * 10 + (c.toNat - '0'.toNat)) 0

/-- A word in decimal digits, maybe with a plus sign in front. -/
def parseWord? (value : String) : Option Nat :=
  let digits := match value.toList with
    | '+' :: rest => rest
    | all => all
  if !digits.isEmpty && digits.all Char.isDigit && digitsValue digits < wordBound then
    some (digitsValue digits)
  else none

def parseCount (key value : String) : Except Error Nat :=
  match parseWord? value with
  | some n => .ok n
  | none => invalid key (.notCount value)

def set (o : Options) (key value : String) : Except Error Options :=
  match key with
  | "keep-sharding-rules" => do return { o with keepRules := ← parseBool key value }
  | "dump-directory" =>
    .ok { o with dumpDirectory := if value.isEmpty then none else some value }
  | "conservative-propagation" => do
    return { o with conservative := ← parseBool key value }
  | "debug-sharding-origins" => do
    return { o with recordsOrigins := ← parseBool key value }
  | "debug-edge-source-sharding" => do
    return { o with recordsEdges := ← parseBool key value }
  | "propagation-strategy" => do return { o with strategy := ← parseStrategy key value }
  | "run-op-priority-propagation" => do
    return { o with byHeuristics := ← parseBool key value }
  | "enable-insert-explicit-collectives" => do
    return { o with insertsCollectives := ← parseBool key value }
  | "close-shardings" => do return { o with closesShardings := ← parseBool key value }
  | "max-worklist-iterations" => do
    return { o with expectedSteps := ← parseCount key value }
  | _ => invalid key .unknown

/-- Cuts a word at its first equals sign. -/
def splitPair? (word : String) : Option (String × String) :=
  let chars := word.toList
  if chars.contains '=' then
    some (String.ofList (chars.takeWhile (· ≠ '=')),
      String.ofList ((chars.dropWhile (· ≠ '=')).drop 1))
  else none

def setWord (o : Options) (word : String) : Except Error Options :=
  match splitPair? word with
  | some (key, value) => o.set key value
  | none => invalid word .notPair

/-- Options that the text does not mention have their defaults. -/
def parse (text : String) : Except Error Options := (Text.words text).foldlM setWord default

end Options
end MeshSharding
