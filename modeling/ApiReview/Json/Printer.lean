import ApiReview.Json.Value
import ApiReview.Number.Shortest

/-!
# Writing JSON

A value as text, either in one line without spaces (`compact`) or with each item on a line of its
own, two blanks further in than its container (`pretty`).
-/

namespace ApiReview.Json

/-- Doubles have a point from `1e-5` up to below `1e16`, and else an exponent with its sign. -/
def doubleLayout : Layout := ⟨-5, 15, true⟩

/-- A character inside a string. -/
def writeChar (c : Char) : List Char :=
  if c = '"' then ['\\', '"']
  else if c = '\\' then ['\\', '\\']
  else if c = '\n' then ['\\', 'n']
  else if c = '\r' then ['\\', 'r']
  else if c = '\t' then ['\\', 't']
  else if c.toNat = 0x08 then ['\\', 'b']
  else if c.toNat = 0x0C then ['\\', 'f']
  else if c.toNat < 0x20 then
    ['\\', 'u', '0', '0', Nat.digitChar (c.toNat / 16), Nat.digitChar (c.toNat % 16)]
  else [c]

/-- A string between its quotes. -/
def writeString (s : String) : List Char :=
  '"' :: s.toList.flatMap writeChar ++ ['"']

/-- The text of a number. -/
def writeNumber : Number → List Char
  | .integer n => (toString n).toList
  | .double x => doubleLayout.write x

mutual

/-- The compact text of a value. -/
def writeCompact : Json → List Char
  | .null => "null".toList
  | .boolean b => (if b then "true" else "false").toList
  | .number n => writeNumber n
  | .string s => writeString s
  | .array items => '[' :: writeCompactItems items
  | .object members => '\x7b' :: writeCompactMembers members

/-- The items of an array and its end. -/
def writeCompactItems : List Json → List Char
  | [] => [']']
  | v :: rest =>
    writeCompact v ++
      match rest with
      | [] => [']']
      | _ => ',' :: writeCompactItems rest

/-- The members of an object and its end. -/
def writeCompactMembers : Members → List Char
  | [] => ['\x7d']
  | (key, v) :: rest =>
    writeString key ++ ':' :: writeCompact v ++
      match rest with
      | [] => ['\x7d']
      | _ => ',' :: writeCompactMembers rest

end

/-- A new line with the given depth of indentation. -/
def indent (depth : Nat) : List Char :=
  '\n' :: List.replicate (2 * depth) ' '

mutual

/-- The indented text of a value at a depth. -/
def writePretty (depth : Nat) : Json → List Char
  | .null => "null".toList
  | .boolean b => (if b then "true" else "false").toList
  | .number n => writeNumber n
  | .string s => writeString s
  | .array [] => ['[', ']']
  | .array (v :: rest) => '[' :: writePrettyItems depth (v :: rest)
  | .object [] => ['\x7b', '\x7d']
  | .object (m :: rest) => '\x7b' :: writePrettyMembers depth (m :: rest)

/-- The items of an array at a depth, and its end. -/
def writePrettyItems (depth : Nat) : List Json → List Char
  | [] => indent depth ++ [']']
  | v :: rest =>
    indent (depth + 1) ++ writePretty (depth + 1) v ++
      match rest with
      | [] => indent depth ++ [']']
      | _ => ',' :: writePrettyItems depth rest

/-- The members of an object at a depth, and its end. -/
def writePrettyMembers (depth : Nat) : Members → List Char
  | [] => indent depth ++ ['\x7d']
  | (key, v) :: rest =>
    indent (depth + 1) ++ writeString key ++ ':' :: ' ' :: writePretty (depth + 1) v ++
      match rest with
      | [] => indent depth ++ ['\x7d']
      | _ => ',' :: writePrettyMembers depth rest

end

/-- The text of a value in one line. -/
def compact (v : Json) : String :=
  String.ofList (writeCompact v)

/-- The text of a value over several lines. -/
def pretty (v : Json) : String :=
  String.ofList (writePretty 0 v)

end ApiReview.Json
