import MeshSharding.Wire.Field

/-! The values that fields hold. A reader of a message takes the fields with the numbers
that it knows and passes over the others, and a field that it knows has to have the right
type. Zero, an empty text and false are not written; several numbers are written packed. -/
namespace MeshSharding
namespace Wire

/-! ### Reading -/

def text? (content : Bytes) : Option String := String.fromUTF8? ⟨content.toArray⟩

/-- Numbers one behind the other. -/
def readPacked (bytes : Bytes) : Option (List Nat) :=
  if bytes = [] then some []
  else
    match h : Varint.read bytes with
    | none => none
    | some (n, rest) =>
      have := Varint.read_shorter h
      (readPacked rest).map (n :: ·)
termination_by bytes.length

namespace Payload

def number? : Payload → Option Nat
  | varint n => some n
  | _ => none

def word? (p : Payload) : Option Int64 := p.number?.map Int64.ofNat

def bool? (p : Payload) : Option Bool := p.number?.map fun n => n ≠ 0

def bytes? : Payload → Option Bytes
  | bytes content => some content
  | _ => none

def string? (p : Payload) : Option String := p.bytes?.bind text?

/-- Several numbers come packed or one by one. -/
def words? : Payload → Option (List Int64)
  | varint n => some [Int64.ofNat n]
  | bytes content => (readPacked content).map fun ns => ns.map Int64.ofNat
  | other => none

end Payload

namespace Fields

def payloads (fs : Fields) (number : Nat) : List Payload :=
  (fs.filter fun f => f.number = number).map (·.payload)

def all {α : Type} (fs : Fields) (number : Nat) (read : Payload → Option α) :
    Option (List α) :=
  (fs.payloads number).mapM read

/-- Of a field that holds one value the last one counts. -/
def last {α : Type} (fs : Fields) (number : Nat) (read : Payload → Option α) (absent : α) :
    Option α :=
  (fs.all number read).map fun xs => xs.getLastD absent

def word (fs : Fields) (number : Nat) : Option Int64 := fs.last number Payload.word? 0

def optionalWord (fs : Fields) (number : Nat) : Option (Option Int64) :=
  (fs.all number Payload.word?).map List.getLast?

def number (fs : Fields) (number : Nat) : Option Nat := fs.last number Payload.number? 0

def bool (fs : Fields) (number : Nat) : Option Bool := fs.last number Payload.bool? false

def string (fs : Fields) (number : Nat) : Option String := fs.last number Payload.string? ""

def bytes (fs : Fields) (number : Nat) : Option Bytes := fs.last number Payload.bytes? []

def words (fs : Fields) (number : Nat) : Option (List Int64) :=
  (fs.all number Payload.words?).map List.flatten

/-- The messages in a message with the limit `limit`. -/
def messages {α : Type} (fs : Fields) (read : Nat → Fields → Option α) (limit number : Nat) :
    Option (List α) :=
  fs.all number fun p =>
    p.bytes?.bind fun content => (readFields (limit - 1) content).bind (read (limit - 1))

/-- Messages of a field that holds one are put together. -/
def message? {α : Type} (fs : Fields) (read : Nat → Fields → Option α) (limit number : Nat) :
    Option (Option α) := do
  let parts ← fs.all number fun p => p.bytes?.bind (readFields (limit - 1))
  if parts.isEmpty then return none
  else return some (← read (limit - 1) parts.flatten)

end Fields

/-! ### Writing -/

def utf8 (s : String) : Bytes := s.toUTF8.data.toList

/-- The word as a number without a sign. -/
def unsigned (x : Int64) : Nat := x.toUInt64.toNat

namespace Fields

def ofNumber (number n : Nat) : Fields := if n = 0 then [] else [⟨number, .varint n⟩]

def ofWord (number : Nat) (x : Int64) : Fields := ofNumber number (unsigned x)

/-- An optional word is written even if it is zero. -/
def ofOptionalWord (number : Nat) : Option Int64 → Fields
  | none => []
  | some x => [⟨number, .varint (unsigned x)⟩]

def ofBool (number : Nat) (b : Bool) : Fields := ofNumber number b.toNat

def ofBytes (number : Nat) (content : Bytes) : Fields :=
  if content = [] then [] else [⟨number, .bytes content⟩]

def ofString (number : Nat) (s : String) : Fields := ofBytes number (utf8 s)

def ofWords (number : Nat) (xs : List Int64) : Fields :=
  ofBytes number (xs.flatMap fun x => Varint.write (unsigned x))

def ofMessage {α : Type} (number : Nat) (fields : α → Fields) (x : α) : Field :=
  ⟨number, .bytes (writeFields (fields x))⟩

/-- A message is written even if it is empty. -/
def ofMessages {α : Type} (number : Nat) (fields : α → Fields) (xs : List α) : Fields :=
  xs.map (ofMessage number fields)

end Fields
end Wire
end MeshSharding
