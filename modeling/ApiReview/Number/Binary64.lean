/-!
# Double precision

A finite double is a sign and a magnitude `mantissa · 2 ^ exponent`. Rounding is exact arithmetic
on natural numbers: `nearest` takes a ratio to the nearest magnitude, a tie to the even mantissa,
and gives nothing where the ratio lies beyond the largest one. Products and quotients round the
exact result. A rounded quotient is at most half a unit away (`roundDiv_le`, `le_roundDiv`).
-/

namespace ApiReview

/-- The quotient of two natural numbers to the nearest, a tie to the even side. -/
def roundDiv (num den : Nat) : Nat :=
  let low := num / den
  let twice := 2 * (num % den)
  if twice < den then low
  else if den < twice then low + 1
  else if low % 2 = 0 then low
  else low + 1

theorem roundDiv_le (num : Nat) {den : Nat} (h : 0 < den) :
    2 * (den * roundDiv num den) ≤ 2 * num + den := by
  have hd := Nat.div_add_mod num den
  have hm := Nat.mod_lt num h
  have he : den * (num / den + 1) = den * (num / den) + den := Nat.mul_succ ..
  simp only [roundDiv]
  split
  · omega
  · split
    · omega
    · split <;> omega

theorem le_roundDiv (num : Nat) {den : Nat} (h : 0 < den) :
    2 * num ≤ 2 * (den * roundDiv num den) + den := by
  have hd := Nat.div_add_mod num den
  have hm := Nat.mod_lt num h
  have he : den * (num / den + 1) = den * (num / den) + den := Nat.mul_succ ..
  simp only [roundDiv]
  split
  · omega
  · split
    · omega
    · split <;> omega

/-- The magnitude `mantissa · 2 ^ exponent`. Zero has the mantissa zero; otherwise the mantissa
has 53 bits, or fewer at the least exponent. -/
structure Magnitude where
  mantissa : Nat
  exponent : Int
  deriving DecidableEq, Repr

namespace Magnitude

/-- The least exponent of a double. -/
def minExponent : Int := -1074

/-- The greatest exponent of a double. -/
def maxExponent : Int := 971

/-- The magnitude zero. -/
def zero : Magnitude := ⟨0, minExponent⟩

/-- The exponent of the last bit kept of a positive ratio. -/
def unitExponent (num den : Nat) : Int :=
  let low : Int := Int.ofNat num.log2 - Int.ofNat den.log2 - 53
  let reaches : Bool :=
    if 0 ≤ low + 53 then den * Nat.pow 2 (low + 53).toNat ≤ num
    else den ≤ num * Nat.pow 2 (-(low + 53)).toNat
  max minExponent (if reaches then low + 1 else low)

/-- The magnitude nearest to a ratio, unless it is too large. -/
def nearest (num den : Nat) : Option Magnitude :=
  if num = 0 then some zero
  else
    let e := unitExponent num den
    let m :=
      if 0 ≤ e then roundDiv num (den * Nat.pow 2 e.toNat)
      else roundDiv (num * Nat.pow 2 (-e).toNat) den
    let rounded : Magnitude := if m = Nat.pow 2 53 then ⟨Nat.pow 2 52, e + 1⟩ else ⟨m, e⟩
    if maxExponent < rounded.exponent then none else some rounded

/-- The ratio that a magnitude is. -/
def ratio (a : Magnitude) : Nat × Nat :=
  if 0 ≤ a.exponent then (a.mantissa * Nat.pow 2 a.exponent.toNat, 1)
  else (a.mantissa, Nat.pow 2 (-a.exponent).toNat)

/-- The rounded product, unless it is too large. -/
def mul (a b : Magnitude) : Option Magnitude :=
  nearest (a.ratio.1 * b.ratio.1) (a.ratio.2 * b.ratio.2)

/-- The rounded quotient, unless it is too large. -/
def div (a b : Magnitude) : Option Magnitude :=
  nearest (a.ratio.1 * b.ratio.2) (a.ratio.2 * b.ratio.1)

end Magnitude

/-- A finite double. -/
structure Binary64 where
  negative : Bool
  magnitude : Magnitude
  deriving DecidableEq, Repr

end ApiReview
