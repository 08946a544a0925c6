/-!
# Rounding to binary formats

A stylesheet's number is the value of its digits in double precision, rounded once more to single
precision. A `Format` fixes the number of significant bits and the range; `Format.round` takes the
ratio of two natural numbers to the nearest value of the format, a tie to the even mantissa. Signs
are kept elsewhere, so every value here is a magnitude.
-/

namespace StyleGate.Number

/-- A magnitude of a binary format: a finite one is `mantissa * 2 ^ exponent`; a number too large
for the format is infinite; zero times infinity is undefined. -/
inductive Magnitude where
  | finite (mantissa : Nat) (exponent : Int)
  | infinite
  | undefined
deriving DecidableEq, Repr

/-- A binary format: the bits of a mantissa, the exponent of the last bit of the least magnitudes,
and the exponent of two from which on a magnitude is infinite. -/
structure Format where
  precision : Nat
  leastExponent : Int
  overflow : Int

/-- Double precision. -/
def Format.double : Format := ⟨53, -1074, 1024⟩

/-- Single precision. -/
def Format.single : Format := ⟨24, -149, 128⟩

/-- The ratio `n / (d * 2 ^ k)` as a numerator and a denominator. -/
def scaleDown (n d : Nat) (k : Int) : Nat × Nat := (n * Nat.pow 2 (-k).toNat, d * Nat.pow 2 k.toNat)

/-- The greatest `k` with `2 ^ k ≤ n / d`, for positive `n` and `d`. -/
def binaryOrder (n d : Nat) : Int :=
  let k : Int := (n.log2 : Int) - d.log2
  let (n', d') := scaleDown n d k
  if d' ≤ n' then k else k - 1

/-- The natural number nearest to `n / d`, a tie to the even one. -/
def divNearest (n d : Nat) : Nat :=
  let q := n / d
  let r := n % d
  if 2 * r < d then q else if d < 2 * r then q + 1 else q + q % 2

/-- The magnitude of the format nearest to `n / d`, a tie to the even mantissa. -/
def Format.round (f : Format) (n d : Nat) : Magnitude :=
  if n = 0 then .finite 0 f.leastExponent
  else
    let e := max f.leastExponent (binaryOrder n d - (f.precision - 1 : Int))
    let (n', d') := scaleDown n d e
    let m := divNearest n' d'
    -- A mantissa rounded up to a power of two moves to the next exponent.
    let (m, e) := if m = Nat.pow 2 f.precision then (m / 2, e + 1) else (m, e)
    if f.overflow ≤ m.log2 + e then .infinite else .finite m e

namespace Magnitude

/-- The magnitude rounded to a format. -/
def round (f : Format) : Magnitude → Magnitude
  | finite m e => f.round (m * Nat.pow 2 e.toNat) (Nat.pow 2 (-e).toNat)
  | infinite => infinite
  | undefined => undefined

/-- The sum, rounded to a format. -/
def add (f : Format) : Magnitude → Magnitude → Magnitude
  | undefined, _ | _, undefined => undefined
  | infinite, _ | _, infinite => infinite
  | finite m e, finite m' e' =>
    let low := min e e'
    let sum := m * Nat.pow 2 (e - low).toNat + m' * Nat.pow 2 (e' - low).toNat
    (finite sum low).round f

/-- The product, rounded to a format. -/
def mul (f : Format) : Magnitude → Magnitude → Magnitude
  | undefined, _ | _, undefined => undefined
  | infinite, finite m _ | finite m _, infinite => if m = 0 then undefined else infinite
  | infinite, infinite => infinite
  | finite m e, finite m' e' => (finite (m * m') (e + e')).round f

/-- The hundredth part, rounded to a format. -/
def hundredth (f : Format) : Magnitude → Magnitude
  | finite m e => f.round (m * Nat.pow 2 e.toNat) (100 * Nat.pow 2 (-e).toNat)
  | infinite => infinite
  | undefined => undefined

/-- Whether the magnitude is zero. -/
def isZero : Magnitude → Bool
  | finite m _ => m == 0
  | _ => false

/-- Whether the magnitude is a whole number. -/
def isWhole : Magnitude → Bool
  | finite m e => m % Nat.pow 2 (-e).toNat == 0
  | _ => false

end Magnitude

/-- A natural number in a format. -/
def Format.ofNat (f : Format) (n : Nat) : Magnitude := f.round n 1

/-- A power of ten in a format. Exponents beyond a thousand are far out of range in either
direction. -/
def Format.powerOfTen (f : Format) (negative : Bool) (exponent : Nat) : Magnitude :=
  let k := min exponent 1000
  if negative then f.round 1 (Nat.pow 10 k) else f.round (Nat.pow 10 k) 1

end StyleGate.Number
