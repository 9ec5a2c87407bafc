/-!
# Binary floating-point numbers

A number of a document that is written with a point or an exponent is held as the nearest number of
the 64-bit binary format. The number is kept as an integer mantissa and a power of two, so every
operation is exact arithmetic on integers.

Many decimals round to the same binary number. The text of a number takes one with the fewest
digits, and among those the nearest. The decimals that round to `m * 2 ^ q` fill an interval whose
ends lie halfway to the neighbouring binary numbers and belong to it when `m` is even. A decimal of
`n` digits in the interval exists only if one of the number's two neighbours on the grid of `n`
digits lies in it, so trying those two for `n = 1, 2, …, 17` finds the shortest.
-/

namespace AmbientDecl.Decimal

/-- A number of the 64-bit format: `mantissa * 2 ^ exponent` with a sign, an infinity, or no
number. -/
inductive Binary64 where
  | finite (negative : Bool) (mantissa : Nat) (exponent : Int)
  | infinite (negative : Bool)
  | notANumber
deriving DecidableEq, Repr, Inhabited

def minExponent : Int := -1074

def maxExponent : Int := 971

/-- The least mantissa of a number of full precision. -/
def fullMantissa : Nat := Nat.pow 2 52

/-- `num / den` rounded to an integer, a half going to the even neighbour. -/
def roundHalfEven (num den : Nat) : Nat :=
  let floor := num / den
  let twice := 2 * (num % den)
  if twice < den then floor
  else if den < twice then floor + 1
  else floor + floor % 2

/-- `num / (den * 2 ^ e)` as a fraction of integers. -/
def scaleDown (num den : Nat) (e : Int) : Nat × Nat :=
  if 0 ≤ e then (num, den * Nat.pow 2 e.toNat) else (num * Nat.pow 2 (-e).toNat, den)

/-- The exponent with which the fraction has a mantissa of full precision, or the least exponent. -/
def exponentFor (num den : Nat) : Int :=
  let guess : Int := (num.log2 : Int) - (den.log2 : Int) - 52
  let (n, d) := scaleDown num den guess
  max (if fullMantissa ≤ n / d then guess else guess - 1) minExponent

/-- The number of the format nearest to a positive fraction. -/
def Binary64.ofFraction (negative : Bool) (num den : Nat) : Binary64 :=
  let e := exponentFor num den
  let (n, d) := scaleDown num den e
  let m := roundHalfEven n d
  let (m, e) := if m = 2 * fullMantissa then (fullMantissa, e + 1) else (m, e)
  if maxExponent < e then .infinite negative else .finite negative m e

/-- The number of the format nearest to `digits * 10 ^ exponent`. Numbers from `10 ^ 330` on are too
great for the format and numbers below `10 ^ (-330)` too small, so their powers need not be
computed. -/
def Binary64.ofDecimal (negative : Bool) (digits : Nat) (exponent : Int) : Binary64 :=
  if digits = 0 ∨ exponent + digits.log2 + 1 < -330 then .finite negative 0 minExponent
  else if 330 < exponent then .infinite negative
  else if 0 ≤ exponent then .ofFraction negative (digits * Nat.pow 10 exponent.toNat) 1
  else .ofFraction negative digits (Nat.pow 10 (-exponent).toNat)

/-- Tells the numbers from the infinities and from no number. -/
def Binary64.isFinite : Binary64 → Bool
  | .finite .. => true
  | _ => false

/-- The number as an integer, if it is one. -/
def Binary64.toInt? : Binary64 → Option Int
  | .finite negative mantissa exponent =>
    let magnitude? : Option Nat :=
      if 0 ≤ exponent then some (mantissa * Nat.pow 2 exponent.toNat)
      else
        let unit := Nat.pow 2 (-exponent).toNat
        if mantissa % unit = 0 then some (mantissa / unit) else none
    magnitude?.map fun n => if negative then -(n : Int) else n
  | _ => none

/-- A fraction of natural numbers. -/
structure Fraction where
  num : Nat
  den : Nat

/-- `m * 2 ^ e` as a fraction. -/
def Fraction.ofBinary (m : Nat) (e : Int) : Fraction :=
  if 0 ≤ e then ⟨m * Nat.pow 2 e.toNat, 1⟩ else ⟨m, Nat.pow 2 (-e).toNat⟩

/-- The fraction in units of `10 ^ k`. -/
def Fraction.perPowerOfTen (x : Fraction) (k : Int) : Fraction :=
  if 0 ≤ k then ⟨x.num, x.den * Nat.pow 10 k.toNat⟩ else ⟨x.num * Nat.pow 10 (-k).toNat, x.den⟩

/-- Whether the integer `n` is above the fraction, or equal to it if `closed`. -/
def Fraction.below (x : Fraction) (n : Nat) (closed : Bool) : Bool :=
  if closed then x.num ≤ n * x.den else x.num < n * x.den

/-- Whether the integer `n` is under the fraction, or equal to it if `closed`. -/
def Fraction.above (x : Fraction) (n : Nat) (closed : Bool) : Bool :=
  if closed then n * x.den ≤ x.num else n * x.den < x.num

/-- The number of digits before the point of an integer, less one. -/
def leadingExponent (n : Nat) : Nat :=
  (Nat.toDigits 10 n).length - 1

/-- The number of places by which a fraction below one is shifted until it reaches one. -/
def placesToOne (fuel : Nat) (x : Fraction) : Nat :=
  match fuel with
  | 0 => 0
  | fuel + 1 => if x.den ≤ x.num then 0 else placesToOne fuel ⟨x.num * 10, x.den⟩ + 1

/-- The exponent of the first digit of a positive fraction; 400 places reach every number of the
format. -/
def decimalExponent (x : Fraction) : Int :=
  if x.den ≤ x.num then leadingExponent (x.num / x.den) else -(placesToOne 400 x : Int)

/-- A decimal: its digits as one integer, and the exponent of the last digit. -/
structure Digits where
  digits : Nat
  exponent : Int
deriving DecidableEq, Repr

/-- Of the grid of `n` digits, the nearest neighbour of `m * 2 ^ q` that rounds to it. -/
def onGrid (m : Nat) (q : Int) (n : Nat) : Option Digits :=
  let value := Fraction.ofBinary m q
  let k := decimalExponent value - n + 1
  let narrow : Bool := m == fullMantissa && minExponent < q
  let low := (Fraction.ofBinary (4 * m - (if narrow then 1 else 2)) (q - 2)).perPowerOfTen k
  let high := (Fraction.ofBinary (4 * m + 2) (q - 2)).perPowerOfTen k
  let closed := m % 2 == 0
  let scaled := value.perPowerOfTen k
  let down := scaled.num / scaled.den
  let up := down + 1
  let remainder := scaled.num % scaled.den
  let fits := fun d => low.below d closed && high.above d closed
  let upIsNearer := scaled.den < 2 * remainder || (scaled.den == 2 * remainder && up % 2 == 0)
  if fits down && !(fits up && upIsNearer) then some ⟨down, k⟩
  else if fits up then some ⟨up, k⟩
  else none

/-- The digits without the zeros at their end. -/
def Digits.trimmed (fuel : Nat) (d : Digits) : Digits :=
  match fuel with
  | 0 => d
  | fuel + 1 =>
    if d.digits % 10 = 0 then Digits.trimmed fuel ⟨d.digits / 10, d.exponent + 1⟩ else d

/-- The fewest digits that round to `m * 2 ^ q`; seventeen always suffice. -/
def shortest (m : Nat) (q : Int) : Digits :=
  match (List.range 17).findSome? fun n => onGrid m q (n + 1) with
  | some d => d.trimmed 20
  | none => ⟨m, q⟩

/-- How numbers are written. -/
structure NumberStyle where
  /-- The least exponent of the first digit that is written positionally. -/
  leastPositional : Int
  /-- The exponent of the first digit from which numbers are written scientifically. -/
  leastScientific : Int
  /-- The least number of digits of a written exponent. -/
  exponentWidth : Nat

/-- Positional between a ten-thousandth and ten to the sixteenth, two digits of exponent. -/
def NumberStyle.standard : NumberStyle := ⟨-4, 16, 2⟩

def padLeft (width : Nat) (cs : List Char) : List Char :=
  List.replicate (width - cs.length) '0' ++ cs

/-- Digits with the first digit at `exponent`, written positionally with a fractional part. -/
def positional (digits : List Char) (exponent : Int) : List Char :=
  if exponent < 0 then
    '0' :: '.' :: List.replicate (-exponent - 1).toNat '0' ++ digits
  else
    let whole := exponent.toNat + 1
    let before := digits.take whole
    let after := digits.drop whole
    before ++ List.replicate (whole - before.length) '0' ++
      '.' :: (if after.isEmpty then ['0'] else after)

/-- Digits with the first digit at `exponent`, written scientifically. -/
def scientific (style : NumberStyle) (digits : List Char) (exponent : Int) : List Char :=
  let mantissa := match digits with
    | [] => []
    | [d] => [d]
    | d :: rest => d :: '.' :: rest
  let sign := if exponent < 0 then '-' else '+'
  mantissa ++ 'e' :: sign :: padLeft style.exponentWidth (Nat.toDigits 10 exponent.natAbs)

def Binary64.textIn (style : NumberStyle) : Binary64 → String
  | .notANumber => "nan"
  | .infinite negative => if negative then "-inf" else "inf"
  | .finite negative mantissa exponent =>
    let body :=
      if mantissa = 0 then ['0', '.', '0']
      else
        let d := shortest mantissa exponent
        let digits := Nat.toDigits 10 d.digits
        let first := d.exponent + digits.length - 1
        if style.leastPositional ≤ first ∧ first < style.leastScientific then
          positional digits first
        else scientific style digits first
    String.ofList (if negative then '-' :: body else body)

/-- The number, written positionally for moderate exponents and else scientifically. -/
def Binary64.text (x : Binary64) : String :=
  x.textIn .standard

end AmbientDecl.Decimal
