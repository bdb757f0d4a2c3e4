import SymbolicSolver.Number.Decimal

/-!
# Complex numbers in floating point

Complex arithmetic and the elementary functions on principal branches, each by its textbook formula in
terms of real functions, and the text form of a complex number.
-/

namespace SymbolicSolver

/-- A complex number with floating-point components. -/
structure ComplexFloat where
  re : Float
  im : Float

namespace ComplexFloat

/-- A real number as a complex one. -/
def real (x : Float) : ComplexFloat := ⟨x, 0⟩

def zero : ComplexFloat := ⟨0, 0⟩
def one : ComplexFloat := ⟨1, 0⟩
def i : ComplexFloat := ⟨0, 1⟩

instance : Inhabited ComplexFloat := ⟨zero⟩

/-- Equality of components as floats, so that both zeros are equal and no NaN is. -/
def same (a b : ComplexFloat) : Bool := a.re == b.re && a.im == b.im

def isZero (z : ComplexFloat) : Bool := z.re == 0 && z.im == 0

def isFinite (z : ComplexFloat) : Bool := z.re.isFinite && z.im.isFinite

/-! ## Field operations -/

def neg (a : ComplexFloat) : ComplexFloat := ⟨-a.re, -a.im⟩
def add (a b : ComplexFloat) : ComplexFloat := ⟨a.re + b.re, a.im + b.im⟩
def sub (a b : ComplexFloat) : ComplexFloat := ⟨a.re - b.re, a.im - b.im⟩
def mul (a b : ComplexFloat) : ComplexFloat := ⟨a.re * b.re - a.im * b.im, a.re * b.im + a.im * b.re⟩

/-- The square of the modulus. -/
def normSq (a : ComplexFloat) : Float := a.re * a.re + a.im * a.im

def inv (a : ComplexFloat) : ComplexFloat := ⟨a.re / a.normSq, -a.im / a.normSq⟩

def div (a b : ComplexFloat) : ComplexFloat :=
  let n := b.normSq
  ⟨(a.re * b.re + a.im * b.im) / n, (a.im * b.re - a.re * b.im) / n⟩

instance : Neg ComplexFloat := ⟨neg⟩
instance : Add ComplexFloat := ⟨add⟩
instance : Sub ComplexFloat := ⟨sub⟩
instance : Mul ComplexFloat := ⟨mul⟩
instance : Div ComplexFloat := ⟨div⟩

/-! ## Modulus and argument -/

/-- The hypotenuse of a right triangle with legs `0 ≤ y ≤ x`, for legs whose squares neither overflow nor
underflow: the rounded root with one correction for the rounding of the sum of squares. -/
def hypotCore (x y : Float) : Float :=
  let h := (x * x + y * y).sqrt
  if h <= 2 * y then
    let d := h - y
    let t1 := x * (2 * d - x)
    let t2 := (d - 2 * (x - y)) * d
    h - (t1 + t2) / (2 * h)
  else
    let d := h - x
    let t1 := 2 * d * (x - 2 * y)
    let t2 := (4 * d - y) * y + d * d
    h - (t1 + t2) / (2 * h)

/-- The length of the vector `(x, y)`, without overflow or underflow on the way. -/
def hypot (x y : Float) : Float :=
  if !(x.isFinite && y.isFinite) then
    if x.isInf || y.isInf then Float.ofScientific 1 false 400 else x + y
  else
    let x := x.abs
    let y := y.abs
    let ax := if x < y then y else x
    let ay := if x < y then x else y
    let tiny := Float.scaleB 1 (-54)
    let scale := Float.scaleB 1 (-600)
    if ax > Float.scaleB 1 511 then
      if ay <= ax * tiny then ax + ay
      else hypotCore (ax * scale) (ay * scale) / scale
    else if ay < Float.scaleB 1 (-459) then
      if ax >= ay / tiny then ax + ay
      else hypotCore (ax / scale) (ay / scale) * scale
    else if ay <= ax * tiny then ax + ay
    else hypotCore ax ay

/-- The modulus. -/
def norm (z : ComplexFloat) : Float := hypot z.re z.im

/-- The argument, in `[-π, π]`. -/
def arg (z : ComplexFloat) : Float := Float.atan2 z.im z.re

/-- The number with the given modulus and argument. -/
def ofPolar (r θ : Float) : ComplexFloat := ⟨r * θ.cos, r * θ.sin⟩

/-! ## Elementary functions -/

def log (z : ComplexFloat) : ComplexFloat := ⟨z.norm.log, z.arg⟩

def exp (z : ComplexFloat) : ComplexFloat :=
  if z.re.isInf then
    if z.re < 0 then
      if !z.im.isFinite then zero else ofPolar z.re.exp z.im
    else if z.im == 0 || !z.im.isFinite then
      ⟨z.re, if z.im.isInf then 0 / 0 else z.im⟩
    else ofPolar z.re.exp z.im
  else if z.re.isNaN && z.im == 0 then z
  else ofPolar z.re.exp z.im

def sqrt (z : ComplexFloat) : ComplexFloat :=
  if z.im == 0 then
    if Decimal.isNegative z.re then
      let s := (-z.re).sqrt
      ⟨0, if Decimal.isNegative z.im then -s else s⟩
    else ⟨z.re.sqrt, z.im⟩
  else if z.re == 0 then
    let x := (z.im.abs / 2).sqrt
    ⟨x, if Decimal.isNegative z.im then -x else x⟩
  else ofPolar z.norm.sqrt (z.arg / 2)

/-- The principal power: `exp (w * log z)`, and one for the exponent zero. -/
def pow (z w : ComplexFloat) : ComplexFloat :=
  if w.isZero then one else exp (w * z.log)

def sin (z : ComplexFloat) : ComplexFloat := ⟨z.re.sin * z.im.cosh, z.re.cos * z.im.sinh⟩
def cos (z : ComplexFloat) : ComplexFloat := ⟨z.re.cos * z.im.cosh, -(z.re.sin) * z.im.sinh⟩

def tan (z : ComplexFloat) : ComplexFloat :=
  let a := z.re + z.re
  let b := z.im + z.im
  let d := a.cos + b.cosh
  ⟨a.sin / d, b.sinh / d⟩

def sinh (z : ComplexFloat) : ComplexFloat := ⟨z.re.sinh * z.im.cos, z.re.cosh * z.im.sin⟩
def cosh (z : ComplexFloat) : ComplexFloat := ⟨z.re.cosh * z.im.cos, z.re.sinh * z.im.sin⟩

def tanh (z : ComplexFloat) : ComplexFloat :=
  let a := z.re + z.re
  let b := z.im + z.im
  let d := a.cosh + b.cos
  ⟨a.sinh / d, b.sin / d⟩

/-- `-i log (sqrt (1 - z²) + i z)` -/
def asin (z : ComplexFloat) : ComplexFloat :=
  -i * ((one - z * z).sqrt + i * z).log

/-- `-i log (i sqrt (1 - z²) + z)` -/
def acos (z : ComplexFloat) : ComplexFloat :=
  -i * (i * (one - z * z).sqrt + z).log

/-- `(log (1 + i z) - log (1 - i z)) / 2i`, infinite at `i` and `-i`. -/
def atan (z : ComplexFloat) : ComplexFloat :=
  if z.same i then ⟨0, 1 / 0⟩
  else if z.same (-i) then ⟨0, -(1 / 0)⟩
  else ((one + i * z).log - (one - i * z).log) / ((one + one) * i)

/-! ## Text -/

/-- The number in the form `a`, `b*I`, `a + b*I` or `a - b*I`; a component that is negligible beside the
other is left out, and a unit imaginary part is written `I`. -/
def format (z : ComplexFloat) (precision : Nat) : String :=
  let re := Decimal.formatReal z.re precision
  if z.im.abs <= 1e-14 * (if z.re.abs < 1 || z.re.isNaN then 1 else z.re.abs) then re
  else
    let im := Decimal.formatReal z.im.abs precision
    let imaginary := if im == "1" then "I" else im ++ "*I"
    if z.re.abs <= 1e-14 * z.im.abs then
      if z.im < 0 then "-" ++ imaginary else imaginary
    else if z.im < 0 then re ++ " - " ++ imaginary
    else re ++ " + " ++ imaginary

end ComplexFloat

end SymbolicSolver
