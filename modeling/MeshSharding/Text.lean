/-! Quoted names and comma-separated lists of the textual forms. -/
namespace MeshSharding
namespace Text

/-- A backslash or a double quote is written behind a backslash. -/
def escapeChar (c : Char) : List Char :=
  if c = '\\' ∨ c = '"' then ['\\', c] else [c]

def escape (name : String) : String :=
  String.ofList (name.toList.flatMap escapeChar)

def quoted (name : String) : String := "\"" ++ escape name ++ "\""

def commas (items : List String) : String := String.intercalate ", " items

def brackets (inner : String) : String := "[" ++ inner ++ "]"

def braces (inner : String) : String := "\x7b" ++ inner ++ "\x7d"

end Text
end MeshSharding
