/-!
# Decimal text of floats

A float is an exact multiple of a power of two, so its decimal digits are computed in natural-number
arithmetic: the exact value is scaled by a power of ten and rounded once, a half going to the even
neighbour. On top of that stands the number format of the answers: significant digits, trailing zeros
removed, positional from `1e-7` up to the precision and scientific beyond.
-/

namespace SymbolicSolver.Decimal

/-- A power of two. -/
def twoPow (n : Nat) : Nat := Nat.pow 2 n

/-- A power of ten. -/
def tenPow (n : Nat) : Nat := Nat.pow 10 n

/-- The magnitude of a finite float as a quotient of naturals. -/
def magnitude (v : Float) : Nat × Nat :=
  let bits := v.toBits.toNat
  let e := bits / twoPow 52 % twoPow 11
  let m := bits % twoPow 52
  if e = 0 then (m, twoPow 1074)
  else if 1075 ≤ e then ((m + twoPow 52) * twoPow (e - 1075), 1)
  else (m + twoPow 52, twoPow (1075 - e))

/-- The sign bit. -/
def isNegative (v : Float) : Bool :=
  v.toBits.toNat / twoPow 63 == 1

/-- The whole number nearest to `num / den`; a half goes to the even neighbour. -/
def roundDiv (num den : Nat) : Nat :=
  let q := num / den
  let r := num % den
  if den < 2 * r ∨ (2 * r = den ∧ q % 2 = 1) then q + 1 else q

/-- The nearest whole number to `num / den * 10 ^ places`. -/
def scaled (num den : Nat) (places : Int) : Nat :=
  if 0 ≤ places then roundDiv (num * tenPow places.natAbs) den
  else roundDiv num (den * tenPow places.natAbs)

/-- The decimal digits of `n`, padded with zeros in front to at least `width`. -/
def paddedDigits (n width : Nat) : List Char :=
  let ds := Nat.toDigits 10 n
  List.replicate (width - ds.length) '0' ++ ds

/-- Digits without the zeros at their end. -/
def dropTrailingZeros (ds : List Char) : List Char :=
  (ds.reverse.dropWhile (· == '0')).reverse

/-- A whole part and a fraction, the point written only when the fraction has digits. -/
def withFraction (whole fraction : List Char) : String :=
  match dropTrailingZeros fraction with
  | [] => String.ofList whole
  | ds => String.ofList (whole ++ '.' :: ds)

/-- `num / den` with the given number of places, trailing zeros removed. -/
def fixed (num den places : Nat) : String :=
  let ds := paddedDigits (scaled num den places) (places + 1)
  withFraction (ds.take (ds.length - places)) (ds.drop (ds.length - places))

/-- The exponent `e` with `10 ^ e ≤ num / den < 10 ^ (e + 1)`, for a positive quotient. -/
def decimalExponent (num den : Nat) : Int :=
  let e : Int := (Nat.toDigits 10 num).length - (Nat.toDigits 10 den).length
  let reaches : Bool :=
    if 0 ≤ e then decide (den * tenPow e.natAbs ≤ num) else decide (den ≤ num * tenPow e.natAbs)
  if reaches then e else e - 1

/-- `num / den` with `digits` significant digits, trailing zeros removed, and a signed exponent. -/
def scientific (num den digits : Nat) : String :=
  let e := decimalExponent num den
  let n := scaled num den (digits - 1 - e)
  let carried := decide (tenPow digits ≤ n)
  let ds := Nat.toDigits 10 (if carried then n / 10 else n)
  let e := if carried then e + 1 else e
  let sign := if e < 0 then "-" else "+"
  withFraction (ds.take 1) (ds.drop 1) ++ "e" ++ sign ++ toString e.natAbs

/-- A float with `precision` significant digits: `nan`, `oo` and `-oo` for what is not finite, `0` for
both zeros, positional where the decimal exponent lies between `-7` and the precision, else scientific. -/
def formatReal (v : Float) (precision : Nat) : String :=
  if v.isNaN then "nan"
  else if v.isInf then (if v > 0 then "oo" else "-oo")
  else if v == 0 then "0"
  else
    let precision := max precision 1
    let exponent : Int := (v.abs.log10.floor).toInt64.toInt
    let (num, den) := magnitude v
    let sign := if isNegative v then "-" else ""
    if (precision : Int) ≤ exponent ∨ exponent < -7 then
      sign ++ scientific num den precision
    else
      let s := fixed num den (precision - 1 - exponent).toNat
      if s == "0" then s else sign ++ s

end SymbolicSolver.Decimal
