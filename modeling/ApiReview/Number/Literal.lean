import ApiReview.Number.Binary64

/-!
# The value of a number literal

A literal without fraction and exponent is an integer while its digits fit 64 bits. Every other
literal is a double: the leading digits that fit 64 bits are rounded to a double, which is then
multiplied or divided by the double nearest to a power of ten. Two roundings happen on the way, so
the result can be a neighbour of the nearest double, and `scaled` says which.
-/

namespace ApiReview

/-- A number of a document. -/
inductive Number where
  | integer (value : Int)
  | double (value : Binary64)
  deriving DecidableEq, Repr

/-- The pieces of a literal, as digits. -/
structure Literal where
  negative : Bool
  whole : List Nat
  fraction : List Nat
  hasFraction : Bool
  exponentNegative : Bool
  exponent : List Nat
  hasExponent : Bool

namespace Literal

/-- The largest number of 64 bits. -/
def maxWord : Nat := Nat.pow 2 64 - 1

/-- The largest exponent that is counted exactly. -/
def maxCounted : Nat := Nat.pow 2 31 - 1

/-- The number that the leading digits add to `start` while it fits 64 bits, and how many digits
were taken. -/
def leading (start : Nat) : List Nat → Nat × Nat
  | [] => (start, 0)
  | d :: ds =>
    if start * 10 + d ≤ maxWord then
      let (value, count) := leading (start * 10 + d) ds
      (value, count + 1)
    else (start, 0)

/-- The double nearest to a power of ten that a double can hold. -/
def powerOfTen (n : Nat) : Magnitude :=
  (Magnitude.nearest (Nat.pow 10 n) 1).getD .zero

/-- A magnitude times a power of ten, or nothing where that is too large. Two steps down by the
largest power bring every 64-bit number to zero. -/
def scaled (a : Magnitude) (exponent : Int) : Option Magnitude :=
  if a.mantissa = 0 then some a
  else if 308 < exponent then none
  else if 0 ≤ exponent then a.mul (powerOfTen exponent.toNat)
  else if -308 ≤ exponent then a.div (powerOfTen (-exponent).toNat)
  else if -616 ≤ exponent then do
    let b ← a.div (powerOfTen 308)
    b.div (powerOfTen (-exponent - 308).toNat)
  else some .zero

/-- The value of the digits of an exponent, or the number of digits after which it can no longer
be counted. -/
def countExponent (value taken : Nat) : List Nat → Except Nat Nat
  | [] => .ok value
  | d :: ds =>
    if maxCounted < value * 10 + d then .error (taken + 1)
    else countExponent (value * 10 + d) (taken + 1) ds

/-- Whether the literal is a whole number of 64 bits, the sign apart, and the number that its
leading digits make. -/
def wholePart (l : Literal) : Bool × Nat × Nat :=
  let (value, count) := leading 0 l.whole
  (count = l.whole.length, value, l.whole.length - count)

/-- The double of a literal, or how many digits of its exponent (all, if it has none) are read
until it is found too large. -/
def double (l : Literal) : Except (Option Nat) Binary64 :=
  let (_, start, dropped) := l.wholePart
  let (value, count) := leading start l.fraction
  let shift := Int.ofNat dropped - Int.ofNat count
  match countExponent 0 0 l.exponent with
  | .error read =>
    if value ≠ 0 && !l.exponentNegative then .error (some read)
    else .ok ⟨l.negative, .zero⟩
  | .ok e =>
    let exponent := if l.exponentNegative then shift - Int.ofNat e else shift + Int.ofNat e
    match (Magnitude.nearest value 1).bind (scaled · exponent) with
    | some a => .ok ⟨l.negative, a⟩
    | none => .error none

/-- The number of a literal, or where it is found too large, as for `double`. An integer keeps its
value from `-2 ^ 63` up to `2 ^ 64 - 1`; minus zero is a double. -/
def number (l : Literal) : Except (Option Nat) Number :=
  let (fits, value, _) := l.wholePart
  if l.hasFraction || l.hasExponent || !fits then l.double.map .double
  else if !l.negative then .ok (.integer value)
  else if value = 0 || Nat.pow 2 63 < value then l.double.map .double
  else .ok (.integer (-value))

end Literal

end ApiReview
