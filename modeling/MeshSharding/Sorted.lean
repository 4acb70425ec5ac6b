/-! Strictly increasing lists, as finite sets and as the keys of finite maps. -/
namespace MeshSharding
namespace Sorted

variable {α β : Type} [DecidableEq α]

def find? (key : α) (entries : List (α × β)) : Option β :=
  (entries.find? fun entry => entry.1 = key).map (·.2)

/-- Changes the value of a key that is present. -/
def update (key : α) (f : β → β) (entries : List (α × β)) : List (α × β) :=
  entries.map fun entry => if entry.1 = key then (entry.1, f entry.2) else entry

@[simp] theorem find?_nil (k : α) : find? k ([] : List (α × β)) = none := rfl

theorem find?_cons (k : α) (entry : α × β) (rest : List (α × β)) :
    find? k (entry :: rest) = if entry.1 = k then some entry.2 else find? k rest := by
  by_cases h : entry.1 = k <;> simp [find?, h]

@[simp] theorem find?_update (k key : α) (f : β → β) (entries : List (α × β)) :
    find? k (update key f entries)
      = if k = key then (find? k entries).map f else find? k entries := by
  induction entries with
  | nil => simp [update]
  | cons entry rest ih =>
    simp only [update, List.map_cons, find?_cons] at ih ⊢
    grind

variable [LT α] [DecidableLT α]

def insert (a : α) : List α → List α
  | [] => [a]
  | b :: rest => if a < b then a :: b :: rest else if a = b then b :: rest
      else b :: insert a rest

/-- The distinct elements of a list in increasing order. -/
def ofList (l : List α) : List α := l.foldr insert []

@[simp] theorem mem_insert (a b : α) (l : List α) : b ∈ insert a l ↔ b = a ∨ b ∈ l := by
  induction l with
  | nil => simp [insert]
  | cons c rest ih => unfold insert; split <;> (try split) <;> simp_all; grind

@[simp] theorem mem_ofList (a : α) (l : List α) : a ∈ ofList l ↔ a ∈ l := by
  induction l with
  | nil => simp [ofList]
  | cons b rest ih =>
    rw [List.mem_cons, ← ih]
    exact mem_insert b a _

/-- Sets the value of a key. -/
def put (key : α) (value : β) : List (α × β) → List (α × β)
  | [] => [(key, value)]
  | entry :: rest => if key < entry.1 then (key, value) :: entry :: rest
      else if key = entry.1 then (key, value) :: rest
      else entry :: put key value rest

def ofEntries (entries : List (α × β)) : List (α × β) :=
  entries.foldl (fun map entry => put entry.1 entry.2 map) []

@[simp] theorem find?_put (k key : α) (value : β) (entries : List (α × β)) :
    find? k (put key value entries) = if k = key then some value else find? k entries := by
  induction entries with
  | nil => by_cases h : k = key <;> simp [put, find?_cons, h, eq_comm]
  | cons entry rest ih => unfold put; split <;> (try split) <;> grind [find?_cons]

end Sorted
end MeshSharding
