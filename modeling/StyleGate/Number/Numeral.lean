import StyleGate.Number.Decimal

/-!
# Numerals

A numeral of a stylesheet as its parts, the value it has, and the text that is written for it: a
short decimal of the value, cut to six significant digits. A numeral with a fraction or an
exponent never ends up looking like a whole number: where it would, `.0` follows.
-/

namespace StyleGate.Number

/-- The parts of a numeral: its sign, the digits before and after the point, and the exponent. -/
structure Numeral where
  signed : Bool
  negative : Bool
  whole : List Nat
  fraction : List Nat
  exponent : Option (Bool × List Nat)
deriving DecidableEq, Repr

/-- A magnitude with a sign; zero has one too. -/
structure Signed where
  negative : Bool
  magnitude : Magnitude
deriving DecidableEq, Repr

namespace Numeral

/-- Whether the numeral is written with digits only. -/
def isWhole (n : Numeral) : Bool := n.fraction.isEmpty && n.exponent.isNone

/-- The value of the digits before the point in double precision, digit by digit. -/
def wholeValue (digits : List Nat) : Magnitude :=
  digits.foldl (fun v d => ((v.mul .double (Format.double.ofNat 10)).add .double (Format.double.ofNat d)))
    (.finite 0 0)

/-- The value of the digits after the point in double precision: each digit is weighed with a
power of a tenth that is itself a rounded product. -/
def fractionValue (digits : List Nat) : Magnitude :=
  let tenth := Format.double.round 1 10
  (digits.foldl
    (fun (v, weight) d =>
      (v.add .double ((Format.double.ofNat d).mul .double weight), weight.mul .double tenth))
    (Magnitude.finite 0 0, tenth)).1

/-- The natural number with the given digits. -/
def natOfDigits (digits : List Nat) : Nat := digits.foldl (fun n d => 10 * n + d) 0

/-- The value of a numeral in double precision. -/
def value (n : Numeral) : Magnitude :=
  let v := (wholeValue n.whole).add .double (fractionValue n.fraction)
  match n.exponent with
  | none => v
  | some (negative, digits) =>
    v.mul .double (Format.double.powerOfTen negative (natOfDigits digits))

/-- The value that a number or a dimension carries. -/
def numberValue (n : Numeral) : Signed := ⟨n.negative, n.value.round .single⟩

/-- The value that a percentage carries: a hundredth in single precision, times a hundred. -/
def percentageValue (n : Numeral) : Signed :=
  let part := (n.value.hundredth .double).round .single
  ⟨n.negative, part.mul .single (Format.single.ofNat 100)⟩

end Numeral

/-! ## Written form -/

/-- A positive decimal in written form: digits before and after the point, and a power of ten where
the number is very large or very small. -/
structure Written where
  whole : List Nat
  fraction : List Nat
  power : Option Int
deriving DecidableEq, Repr

/-- Decimals with at most 21 digits before the point, or at most five zeros after it, are written
out; all others get a power of ten. -/
def Decimal.written (d : Decimal) : Written :=
  let n : Int := d.digits.length
  if n ≤ d.point ∧ d.point ≤ 21 then
    ⟨d.digits ++ List.replicate (d.point - n).toNat 0, [0], none⟩
  else if 0 < d.point ∧ d.point ≤ 21 then
    ⟨d.digits.take d.point.toNat, d.digits.drop d.point.toNat, none⟩
  else if -6 < d.point ∧ d.point ≤ 0 then
    ⟨[0], List.replicate (-d.point).toNat 0 ++ d.digits, none⟩
  else ⟨d.digits.take 1, d.digits.drop 1, some (d.point - 1)⟩

/-- A list of digits plus one in its last place. -/
def increment (digits : List Nat) : List Nat :=
  let n := Numeral.natOfDigits digits + 1
  let up := digitsOf n
  List.replicate (digits.length - up.length) 0 ++ up

/-- The decimal cut to six significant digits, a half rounded up. A carry out of the first digit
lengthens the part before the point; the power of ten stays. Zeros at the end of the fraction are
dropped. -/
def Written.sixDigits (w : Written) : Written :=
  let digits := w.whole ++ w.fraction
  let kept := (digits.takeWhile (· == 0)).length + 6
  let point := w.whole.length
  match digits[kept]? with
  | none => { w with fraction := stripZeros w.fraction }
  | some next =>
    let head := digits.take kept
    let rounded := if 5 ≤ next then increment head else head
    let point := point + (rounded.length - head.length)
    ⟨rounded.take point ++ List.replicate (point - rounded.length) 0,
      stripZeros (rounded.drop point), w.power⟩

/-- A digit as a character. -/
def digitChar (d : Nat) : Char := Char.ofNat (48 + d)

/-- The text of a written decimal. -/
def Written.text (w : Written) : List Char :=
  let fraction := if w.fraction.isEmpty then [] else '.' :: w.fraction.map digitChar
  let power := match w.power with
    | none => []
    | some k => 'e' :: (toString k).toList
  w.whole.map digitChar ++ fraction ++ power

/-- The mantissa and exponent that are written for a magnitude. Beyond the range of single
precision the bit pattern is written as if the range went on: an infinite magnitude as `2 ^ 128`, an
undefined one as `1.5 * 2 ^ 128`. -/
def Magnitude.pattern : Magnitude → Nat × Int
  | .finite m e => (m, e)
  | .infinite => (Nat.pow 2 23, 105)
  | .undefined => (3 * Nat.pow 2 22, 105)

/-- The text of a value. `signed` says that the source had a sign, which is kept for values that are
not negative, `whole` that the source had digits only. An undefined value has no sign. -/
def Signed.text (v : Signed) (signed whole : Bool) : List Char :=
  let sign :=
    if v.magnitude == .undefined then []
    else if v.negative then ['-']
    else if signed then ['+'] else []
  if v.magnitude.isZero then sign ++ '0' :: (if whole then [] else ['.', '0'])
  else
    let (m, e) := v.magnitude.pattern
    let w := (Decimal.ofMagnitude m e).written.sixDigits
    let point :=
      if !whole && v.magnitude.isWhole && w.fraction.isEmpty && w.power.isNone then ['.', '0']
      else []
    sign ++ w.text ++ point

/-- The text that is written for a number. -/
def Numeral.numberText (n : Numeral) : List Char := n.numberValue.text n.signed n.isWhole

/-- The text that is written for a percentage, without the percent sign. -/
def Numeral.percentageText (n : Numeral) : List Char := n.percentageValue.text n.signed n.isWhole

end StyleGate.Number
