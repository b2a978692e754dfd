/-!
# Structured output

Reports can be written as JSON. A value is a tree; an object is a list of fields
in the order in which they are written. `compact` writes no blanks at all;
`pretty` writes every member of a non-empty array or object on a line of its own,
two spaces further in than its parent.

In a string the quote and the backslash are escaped, the control characters by
their short names where they have one and by four hexadecimal digits where they
have none. Every other character stands for itself.
-/

namespace Ogg

/-- A JSON value without fractions. -/
inductive Json where
  /-- The value for what is not there. -/
  | null
  /-- `true` or `false`. -/
  | bool (value : Bool)
  /-- A number that is not negative. -/
  | number (value : Nat)
  /-- A string. -/
  | text (value : String)
  /-- Values in order. -/
  | array (items : List Json)
  /-- Fields in the order in which they are written. -/
  | object (fields : List (String × Json))

namespace Json

/-- A value that may be missing. -/
def ofOption {α : Type} (f : α → Json) : Option α → Json
  | some a => f a
  | none => null

/-! ### Strings -/

/-- A character inside a quoted string. -/
def escapeChar (c : Char) : String :=
  if c = '"' then "\\\""
  else if c = '\\' then "\\\\"
  else if c.val = 8 then "\\b"
  else if c.val = 12 then "\\f"
  else if c = '\n' then "\\n"
  else if c = '\r' then "\\r"
  else if c = '\t' then "\\t"
  else if c.val < 32 then
    "\\u00" ++ String.ofList [Nat.digitChar (c.toNat / 16), Nat.digitChar (c.toNat % 16)]
  else c.toString

/-- A string in quotes. -/
def quote (s : String) : String := "\"" ++ String.join (s.toList.map escapeChar) ++ "\""

/-! ### Writing -/

mutual

/-- A value without blanks. -/
def compact : Json → String
  | null => "null"
  | bool true => "true"
  | bool false => "false"
  | number n => toString n
  | text s => quote s
  | array items => "[" ++ String.intercalate "," (compactItems items) ++ "]"
  | object fields => "\x7b" ++ String.intercalate "," (compactFields fields) ++ "\x7d"

/-- The items of an array without blanks. -/
def compactItems : List Json → List String
  | [] => []
  | item :: rest => item.compact :: compactItems rest

/-- The fields of an object without blanks. -/
def compactFields : List (String × Json) → List String
  | [] => []
  | (key, value) :: rest => (quote key ++ ":" ++ value.compact) :: compactFields rest

end

/-- The beginning of a line at a depth. -/
def lineStart (depth : Nat) : String := "\n" ++ String.ofList (List.replicate (2 * depth) ' ')

/-- Members between brackets, each on its own line; no line at all if there are none. -/
def onLines (opening closing : String) (depth : Nat) (members : List String) : String :=
  if members.isEmpty then opening ++ closing
  else
    let lines := members.map (lineStart (depth + 1) ++ ·)
    opening ++ String.intercalate "," lines ++ lineStart depth ++ closing

mutual

/-- A value on lines, at a depth. -/
def prettyAt (depth : Nat) : Json → String
  | null => "null"
  | bool true => "true"
  | bool false => "false"
  | number n => toString n
  | text s => quote s
  | array items => onLines "[" "]" depth (prettyItems (depth + 1) items)
  | object fields => onLines "\x7b" "\x7d" depth (prettyFields (depth + 1) fields)

/-- The items of an array, each at a depth. -/
def prettyItems (depth : Nat) : List Json → List String
  | [] => []
  | item :: rest => item.prettyAt depth :: prettyItems depth rest

/-- The fields of an object, each at a depth. -/
def prettyFields (depth : Nat) : List (String × Json) → List String
  | [] => []
  | (key, value) :: rest => (quote key ++ ": " ++ value.prettyAt depth) :: prettyFields depth rest

end

/-- A value on lines. -/
def pretty (j : Json) : String := j.prettyAt 0

end Json

end Ogg
