/-!
# Text as a list of characters

Searching, cutting and replacing, on `List Char` so that each operation is a structural recursion.
Replacement takes the leftmost occurrence, then goes on behind it (`replaceAll`); a text is cut at
every separator, so that there is one piece more than separators (`length_splitOn`), and the
pieces joined again give the text (`joinWith_splitOn`).
-/

namespace ApiReview.Text

/-- The text behind `start`, if it begins with it. -/
def afterStart? : List Char → List Char → Option (List Char)
  | [], s => some s
  | _ :: _, [] => none
  | p :: start, c :: s => if p = c then afterStart? start s else none

/-- Whether `part` occurs somewhere in the text. -/
def occursIn (part : List Char) : List Char → Bool
  | [] => part.isEmpty
  | c :: s => part.isPrefixOf (c :: s) || occursIn part s

/-- `replaceAll`, with the number of characters left of the occurrence being replaced. -/
def replaceFrom (part new : List Char) : Nat → List Char → List Char
  | _, [] => []
  | n + 1, _ :: s => replaceFrom part new n s
  | 0, c :: s =>
    if part.isPrefixOf (c :: s) then new ++ replaceFrom part new (part.length - 1) s
    else c :: replaceFrom part new 0 s

/-- Every occurrence of the non-empty `part`, from the left and without overlap, becomes `new`. -/
def replaceAll (part new s : List Char) : List Char :=
  replaceFrom part new 0 s

/-- The pieces between the separators. -/
def splitOn (sep : Char) : List Char → List (List Char)
  | [] => [[]]
  | c :: s =>
    if c = sep then [] :: splitOn sep s
    else
      match splitOn sep s with
      | [] => [[c]]
      | piece :: pieces => (c :: piece) :: pieces

/-- The pieces with a separator between each two. -/
def joinWith (sep : Char) : List (List Char) → List Char
  | [] => []
  | [piece] => piece
  | piece :: next :: pieces => piece ++ sep :: joinWith sep (next :: pieces)

/-- The text before and behind the first separator. -/
def cutAt? (sep : Char) : List Char → Option (List Char × List Char)
  | [] => none
  | c :: s =>
    if c = sep then some ([], s)
    else (cutAt? sep s).map fun cut => (c :: cut.1, cut.2)

/-- The text without the characters at its end that satisfy `p`. -/
def dropEndWhile (p : Char → Bool) (s : List Char) : List Char :=
  (s.reverse.dropWhile p).reverse

/-- The number of bytes of a text. -/
def byteLength : List Char → Nat
  | [] => 0
  | c :: s => c.utf8Size + byteLength s

/-- The small form of an ASCII capital; any other character is kept. -/
def lowerAscii (s : List Char) : List Char :=
  s.map Char.toLower

theorem splitOn_ne_nil (sep : Char) (s : List Char) : splitOn sep s ≠ [] := by
  cases s with
  | nil => simp [splitOn]
  | cons c s =>
    simp only [splitOn]
    split
    · simp
    · split <;> simp

theorem joinWith_splitOn (sep : Char) (s : List Char) : joinWith sep (splitOn sep s) = s := by
  induction s with
  | nil => rfl
  | cons c s ih =>
    simp only [splitOn]
    split
    · rename_i h
      cases hs : splitOn sep s with
      | nil => exact absurd hs (splitOn_ne_nil sep s)
      | cons piece pieces => rw [hs] at ih; simp [joinWith, ih, h]
    · cases hs : splitOn sep s with
      | nil => exact absurd hs (splitOn_ne_nil sep s)
      | cons piece pieces =>
        rw [hs] at ih
        cases pieces with
        | nil => simpa [joinWith] using ih
        | cons next pieces => simpa [joinWith] using ih

theorem length_splitOn (sep : Char) (s : List Char) :
    (splitOn sep s).length = s.count sep + 1 := by
  induction s with
  | nil => rfl
  | cons c s ih =>
    simp only [splitOn]
    split
    · rename_i h; simp [ih, h]
    · rename_i h
      cases hs : splitOn sep s with
      | nil => exact absurd hs (splitOn_ne_nil sep s)
      | cons piece pieces => rw [hs] at ih; simp_all

/-- Whether the text begins with `start`. -/
def startsWith (start s : String) : Bool :=
  start.toList.isPrefixOf s.toList

/-- Whether `part` occurs in the text. -/
def contains (part s : String) : Bool :=
  occursIn part.toList s.toList

/-- The text with every occurrence of `part` replaced by `new`. -/
def replace (part new s : String) : String :=
  String.ofList (replaceAll part.toList new.toList s.toList)

/-- The text behind `start`, if it begins with it. -/
def stripStart? (start s : String) : Option String :=
  (afterStart? start.toList s.toList).map String.ofList

/-- The text before `tail`, if it ends with it. -/
def stripEnd? (tail s : String) : Option String :=
  (afterStart? tail.toList.reverse s.toList.reverse).map fun r => String.ofList r.reverse

/-- The texts one after another, with `sep` between each two. -/
def join (sep : String) : List String → String
  | [] => ""
  | [s] => s
  | s :: next :: rest => s ++ sep ++ join sep (next :: rest)

/-- Each text on a line of its own, with a line feed between each two. -/
def lines (items : List String) : String :=
  join "\n" items

/-- The text between double quotes, as it is. -/
def quoted (s : String) : String :=
  "\"" ++ s ++ "\""

end ApiReview.Text
