import ApiReview.Text.Blank
import ApiReview.Json.Misfit

/-!
# Versions

A version has three numbers below `2 ^ 32`. Its text may have a `v` before them and, behind a
hyphen or a plus sign, a suffix that says nothing here; blanks around it do not count.
-/

namespace ApiReview

open Text

/-- The three numbers of a version. -/
structure Version where
  major : UInt32
  minor : UInt32
  patch : UInt32
  deriving DecidableEq, Repr

namespace Version

/-- Why a text is not a version. -/
inductive Problem where
  | notThreeParts (text : String)
  | badMajor
  | badMinor
  | badPatch
  deriving DecidableEq, Repr

/-- The wording of a problem. -/
def Problem.message : Problem → String
  | notThreeParts text => "invalid version '" ++ text ++ "', expected 'X.Y.Z'"
  | badMajor => "invalid major"
  | badMinor => "invalid minor"
  | badPatch => "invalid patch"

/-- The number that decimal digits denote. -/
def numberOf (digits : List Char) : Nat :=
  digits.foldl (fun n c => n * 10 + (c.toNat - '0'.toNat)) 0

/-- The number of a part: ASCII digits, at least one, below `2 ^ 32`. -/
def part? (part : List Char) : Option UInt32 :=
  if part ≠ [] ∧ part.all Char.isDigit ∧ numberOf part < UInt32.size then
    some (UInt32.ofNat (numberOf part))
  else none

/-- The text of a version without blanks, the letter before it, and the suffix. -/
def core (s : String) : List Char :=
  let body :=
    match trim s.toList with
    | 'v' :: rest => rest
    | rest => rest
  body.takeWhile fun c => c ≠ '-' && c ≠ '+'

/-- The version of a text. -/
def parse (s : String) : Except Problem Version :=
  match splitOn '.' (core s) with
  | [major, minor, patch] =>
    match part? major, part? minor, part? patch with
    | some major, some minor, some patch => .ok ⟨major, minor, patch⟩
    | none, _, _ => .error .badMajor
    | _, none, _ => .error .badMinor
    | _, _, none => .error .badPatch
  | _ => .error (.notThreeParts s)

/-- The text of a version. -/
def text (v : Version) : String :=
  toString v.major.toNat ++ "." ++ toString v.minor.toNat ++ "." ++ toString v.patch.toNat

/-- The order of versions: by the first number that differs. -/
def compare (a b : Version) : Ordering :=
  (Ord.compare a.major.toNat b.major.toNat).then
    ((Ord.compare a.minor.toNat b.minor.toNat).then (Ord.compare a.patch.toNat b.patch.toNat))

/-- Whether the first two numbers of `a` come after those of `b`. -/
def isNewerMinorThan (a b : Version) : Bool :=
  b.major < a.major || (a.major = b.major && b.minor < a.minor)

/-- A version from a value. -/
def ofJson : Json → Except Json.Misfit Version
  | .string s => (parse s).mapError fun problem => .refused problem.message
  | v => .error (.invalidType (Json.found v) "a string")

end Version

end ApiReview
