import StyleGate.Number.Binary

/-!
# Decimals of a magnitude

The decimal that is written for a single-precision magnitude. It is made in a precision of 32 bits:
the magnitude and the two bounds of what rounds to it are multiplied by a power of ten, every product
rounded, and the bounds are drawn in by one unit, so that nothing beyond the true bounds is taken.
Then the upper bound is cut at the first decimal place that leaves it above the lower bound, and its
last digit is lowered as long as that comes nearer to the magnitude. The decimal reads back as the
magnitude; a bound itself is never it, so that now and then one digit more is written than it takes.
-/

namespace StyleGate.Number

/-- A positive decimal: `0.d₁d₂…dₙ * 10 ^ point`, where the `dᵢ` are the digits of `digits`. -/
structure Decimal where
  digits : List Nat
  point : Int
deriving DecidableEq, Repr

/-- The digits of a natural number, the leading one first; zero has none. -/
def digitsOf (n : Nat) : List Nat := go [] n
where
  /-- The digits of `n` in front of those already found. -/
  go (acc : List Nat) (n : Nat) : List Nat :=
    if n = 0 then acc else go (n % 10 :: acc) (n / 10)
  termination_by n
  decreasing_by omega

/-- A list of digits without the zeros at its end. -/
def stripZeros (digits : List Nat) : List Nat := (digits.reverse.dropWhile (· == 0)).reverse

/-! ## Words -/

/-- A positive number of 32 bits, `mantissa * 2 ^ exponent`. -/
structure Word where
  mantissa : Nat
  exponent : Int
deriving DecidableEq, Repr

namespace Word

/-- The word of a positive mantissa that has at most 32 bits. -/
def ofMantissa (m : Nat) (e : Int) : Word :=
  let shift := 31 - m.log2
  ⟨m * Nat.pow 2 shift, e - shift⟩

/-- The word nearest to a power of ten. -/
def powerOfTen (k : Int) : Word :=
  let (n, d) := (Nat.pow 10 k.toNat, Nat.pow 10 (-k).toNat)
  let e := binaryOrder n d - 31
  let (n', d') := scaleDown n d e
  ⟨divNearest n' d', e⟩

/-- The product, its last bit rounded, a half up. -/
def mul (a b : Word) : Word :=
  ⟨(a.mantissa * b.mantissa + Nat.pow 2 31) / Nat.pow 2 32, a.exponent + b.exponent + 32⟩

end Word

/-- The least of the powers …, -4, 4, 12, … of ten that brings a word of an exponent to at most 29
bits behind the point. That `30103 / 100000` stands for the logarithm of two does not show in the
range of single precision. -/
def scalingPower (e : Int) : Int :=
  let k := -((e + 29) * 30103 / 100000)
  8 * ((k + 35) / 8) - 28

/-! ## What rounds to a magnitude -/

/-- What rounds to a magnitude, as distances from its upper bound, in units of `2 ^ (-shift)`. -/
structure Window where
  upper : Nat
  /-- The distance to the lower bound. -/
  width : Nat
  /-- The distance to the magnitude. -/
  gap : Nat
  shift : Nat
deriving DecidableEq, Repr

namespace Window

/-- The window of `m * 2 ^ e`, scaled by `10 ^ k`. Its bounds lie halfway to the neighbours; below a
power of two the neighbour is twice as close. -/
def around (f : Format) (m : Nat) (e k : Int) : Window :=
  let scale := Word.powerOfTen k
  let top := Word.ofMantissa (2 * m + 1) (e - 1)
  let (m', e') := if m = Nat.pow 2 (f.precision - 1) then (4 * m - 1, e - 2) else (2 * m - 1, e - 1)
  let bottom : Word := ⟨m' * Nat.pow 2 (e' - top.exponent).toNat, top.exponent⟩
  let upper := (top.mul scale).mantissa - 1
  let lower := (bottom.mul scale).mantissa + 1
  { upper
    width := upper - lower
    gap := upper - ((Word.ofMantissa m e).mul scale).mantissa
    shift := (-(top.mul scale).exponent).toNat }

/-- How often the last digit of a decimal is lowered that lies `rest` below the upper bound: while
the magnitude lies below the decimal and comes nearer by it, and the lower bound is not passed. -/
def lowerings (width gap unit rest : Nat) : Nat :=
  if 0 < unit ∧ rest < gap ∧ rest + unit ≤ width ∧
      (rest + unit < gap ∨ rest + unit - gap < gap - rest) then
    lowerings width gap unit (rest + unit) + 1
  else 0
termination_by width - rest
decreasing_by omega

/-- The decimal that ends at a place, in units of `10 ^ place`, if the upper bound can be cut there.
In front of the point a decimal on the lower bound will do. -/
def cutAt (w : Window) (place : Int) : Option Nat :=
  let scale := Nat.pow 10 (-place).toNat
  let unit := Nat.pow 10 place.toNat * Nat.pow 2 w.shift
  let rest := w.upper * scale % unit
  let width := w.width * scale
  if rest < width ∨ (0 ≤ place ∧ rest = width) then
    some (w.upper * scale / unit - lowerings width (w.gap * scale) unit rest)
  else none

end Window

/-- The decimal of `c` units of `10 ^ (place - k)`. -/
def Decimal.ofUnits (c : Nat) (place k : Int) : Decimal :=
  let digits := digitsOf c
  ⟨digits, digits.length + place - k⟩

/-- The decimal that is written for the single-precision magnitude `m * 2 ^ e`, for a positive
mantissa. The window has at most nine digits on either side of the point. -/
def Decimal.ofMagnitude (m : Nat) (e : Int) : Decimal :=
  let k := scalingPower (Word.ofMantissa (2 * m + 1) (e - 1)).exponent
  let w := Window.around .single m e k
  let cut := (List.range 19).findSome? fun (i : Nat) =>
    let place := 9 - (i : Int)
    (w.cutAt place).map fun c => (c, place)
  let placed := cut.getD (w.upper, 0)
  ofUnits placed.1 placed.2 k

end StyleGate.Number
