/-! Lists of sizes, and the bounds of words. -/
namespace MeshSharding

/-- Words are below this bound. -/
def wordBound : Nat := 0x10000000000000000

/-- Words without a sign bit are below this bound. -/
def signedBound : Nat := 0x8000000000000000

namespace Sizes

/-- Whether signed words address `count` objects of `bytes` bytes each. -/
def fit (count bytes : Nat) : Bool := count * bytes < signedBound

/-- The number of places that the sizes span. -/
def product : List Nat → Nat
  | [] => 1
  | n :: rest => n * product rest

@[simp] theorem product_nil : product [] = 1 := rfl

@[simp] theorem product_cons (n : Nat) (rest : List Nat) :
    product (n :: rest) = n * product rest := rfl

@[simp] theorem product_append (l r : List Nat) :
    product (l ++ r) = product l * product r := by
  induction l with
  | nil => simp
  | cons n rest ih => simp [ih, Nat.mul_assoc]

/-- A number with a further digit is below the bound of the number times that of the digit. -/
theorem mul_add_lt {index count digit size : Nat} (hindex : index < count) (hdigit : digit < size) :
    index * size + digit < count * size :=
  calc index * size + digit
      < index * size + size := Nat.add_lt_add_left hdigit _
    _ = (index + 1) * size := (Nat.succ_mul ..).symm
    _ ≤ count * size := Nat.mul_le_mul_right _ hindex

end Sizes
end MeshSharding
