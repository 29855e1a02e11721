import ApiReview.Text.Basic

/-!
# Places in a text

A place is a line, counted from one, and the number of bytes of that line up to it. `offsetOf`
turns such a pair into a byte offset that never lies behind the end of the text
(`offsetOf_le_length`).
-/

namespace ApiReview.Text

/-- A line, counted from one, and a number of bytes of that line. -/
structure Position where
  line : Nat
  column : Nat
  deriving DecidableEq, Repr, Inhabited

namespace Position

/-- The place before the first character. -/
def start : Position :=
  ⟨1, 0⟩

/-- The place behind the character. -/
def advance (p : Position) (c : Char) : Position :=
  if c = '\n' then ⟨p.line + 1, 0⟩ else ⟨p.line, p.column + c.utf8Size⟩

/-- The place behind the first `n` bytes of the character. -/
def advanceBytes (p : Position) (c : Char) (n : Nat) : Position :=
  if c = '\n' then ⟨p.line + 1, 0⟩ else ⟨p.line, p.column + n⟩

/-- The place behind the first byte of the character, which is how the character is pointed at. -/
def pointAt (p : Position) (c : Char) : Position :=
  p.advanceBytes c 1

end Position

/-- The number of bytes in the first `n` lines, each with its line feed. -/
def lineStart : Nat → List Char → Nat
  | 0, _ => 0
  | _ + 1, [] => 0
  | n + 1, c :: s => c.utf8Size + lineStart (if c = '\n' then n else n + 1) s

/-- The byte offset of the byte at a line and column, each counted from one. -/
def offsetOf (s : List Char) (p : Position) : Option Nat :=
  if p.line = 0 then none
  else some (min (lineStart (p.line - 1) s + (p.column - 1)) (byteLength s))

theorem offsetOf_le_length {s : List Char} {p : Position} {n : Nat} (h : offsetOf s p = some n) :
    n ≤ byteLength s := by
  unfold offsetOf at h
  split at h
  · simp at h
  · simp only [Option.some.injEq] at h
    omega

end ApiReview.Text
