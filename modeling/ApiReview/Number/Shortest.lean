import ApiReview.Number.Binary64

/-!
# The shortest decimal of a double

The decimals that round to a magnitude fill an interval around it, whose ends belong to it when
the mantissa is even. The shortest decimal is found on decimal grids from the coarsest to the
finest: the first grid with a point in the interval wins, and of two points the nearer one. If any
point of a grid lies in the interval, so does one of the two neighbours of the value itself, so
only these are tried. A `Layout` then says how the digits are written.
-/

namespace ApiReview

/-- The decimal `digits · 10 ^ exponent`. -/
structure Decimal where
  digits : Nat
  exponent : Int
  deriving DecidableEq, Repr

namespace Decimal

/-- Whether `a / b ≤ c / d`. -/
def ratioLe (a b : Nat × Nat) : Bool :=
  a.1 * b.2 ≤ b.1 * a.2

/-- The ratio that a decimal is. -/
def ratio (d : Decimal) : Nat × Nat :=
  if 0 ≤ d.exponent then (d.digits * Nat.pow 10 d.exponent.toNat, 1)
  else (d.digits, Nat.pow 10 (-d.exponent).toNat)

/-- The lower end, the upper end, and whether the ends count: what rounds to a magnitude. -/
def interval (a : Magnitude) : (Nat × Nat) × (Nat × Nat) × Bool :=
  let quarter := Magnitude.ratio ⟨1, a.exponent - 2⟩
  let below := if a.mantissa = Nat.pow 2 52 && Magnitude.minExponent < a.exponent then 1 else 2
  (((4 * a.mantissa - below) * quarter.1, quarter.2),
    ((4 * a.mantissa + 2) * quarter.1, quarter.2), a.mantissa % 2 = 0)

/-- Whether a decimal rounds to a magnitude. -/
def roundsTo (a : Magnitude) (d : Decimal) : Bool :=
  let (low, high, ends) := interval a
  if ends then ratioLe low d.ratio && ratioLe d.ratio high
  else !ratioLe d.ratio low && !ratioLe high d.ratio

/-- The number of decimal digits before the point of a ratio, negative for zeros behind it. -/
def scaleOf (r : Nat × Nat) : Int :=
  if r.2 ≤ r.1 then Int.ofNat (Nat.toDigits 10 (r.1 / r.2)).length
  else
    match (List.range 400).find? fun n => r.2 ≤ r.1 * Nat.pow 10 (n + 1) with
    | some n => -Int.ofNat n
    | none => 0

/-- The points next to a ratio on the grid of multiples of `10 ^ exponent`, the nearer first; a
tie goes to the even one. -/
def neighbours (r : Nat × Nat) (exponent : Int) : List Decimal :=
  let (num, den) :=
    if 0 ≤ exponent then (r.1, r.2 * Nat.pow 10 exponent.toNat)
    else (r.1 * Nat.pow 10 (-exponent).toNat, r.2)
  let near := roundDiv num den
  let low := num / den
  let far := if near = low then low + 1 else low
  [⟨near, exponent⟩, ⟨far, exponent⟩]

/-- The shortest decimal that rounds to a positive magnitude, and of those the nearest. Seventeen
digits always suffice. -/
def shortest (a : Magnitude) : Decimal :=
  let r := a.ratio
  let scale := scaleOf r
  ((List.range 17).findSome? fun n =>
    (neighbours r (scale - Int.ofNat (n + 1))).find? (roundsTo a)).getD ⟨0, 0⟩

/-- The digits of a decimal without the zeros at the end, and the decimal exponent of the first
one. -/
def significant (d : Decimal) : List Char × Int :=
  let all := Nat.toDigits 10 d.digits
  ((all.reverse.dropWhile (· = '0')).reverse, d.exponent + Int.ofNat all.length - 1)

end Decimal

/-- How a double is written: with a point while the exponent of its first digit lies between the
two bounds, and otherwise with an exponent, which has a sign on both sides of zero if asked for. -/
structure Layout where
  minPositional : Int
  maxPositional : Int
  plusSign : Bool

namespace Layout

/-- Digits with a point, the first digit having the given exponent. -/
def positional (digits : List Char) (exponent : Int) : List Char :=
  if exponent < 0 then
    '0' :: '.' :: (List.replicate (-exponent - 1).toNat '0' ++ digits)
  else
    let whole := exponent.toNat + 1
    let padded := digits ++ List.replicate (whole - digits.length) '0'
    let fraction := padded.drop whole
    padded.take whole ++ '.' :: (if fraction = [] then ['0'] else fraction)

/-- Digits with an exponent. -/
def scientific (layout : Layout) (digits : List Char) (exponent : Int) : List Char :=
  let fraction := digits.drop 1
  digits.take 1 ++ (if fraction = [] then [] else '.' :: fraction) ++
    'e' :: (if exponent < 0 then ['-'] else if layout.plusSign then ['+'] else []) ++
    Nat.toDigits 10 exponent.natAbs

/-- The text of a double. -/
def write (layout : Layout) (x : Binary64) : List Char :=
  let sign := if x.negative then ['-'] else []
  if x.magnitude.mantissa = 0 then sign ++ ['0', '.', '0']
  else
    let (digits, exponent) := (Decimal.shortest x.magnitude).significant
    sign ++
      if layout.minPositional ≤ exponent ∧ exponent ≤ layout.maxPositional then
        positional digits exponent
      else layout.scientific digits exponent

end Layout

end ApiReview
