import LayoutCompose.Number.Integer

/-!
# Double-precision numbers

Fractions in layouts are double-precision numbers. They are kept exactly, as a
significand times a power of two, so that reading, dividing and printing round
by integer arithmetic alone. Every rounding is to the nearest number, and from
the middle to the even one.
-/

namespace LayoutCompose.Number

/-- The nearest integer to `num / den`; of two, the even one. -/
def roundDiv (num den : Nat) : Nat :=
  let quotient := num / den
  let twice := 2 * (num % den)
  if twice < den then quotient
  else if den < twice then quotient + 1
  else quotient + quotient % 2

/-- A finite number `± significand * 2 ^ exponent`. -/
structure Binary64 where
  negative : Bool
  significand : Nat
  exponent : Int
  deriving DecidableEq, Repr

namespace Binary64

def leastExponent : Int := -1074

def greatestExponent : Int := 971

def zero : Binary64 := ⟨false, 0, leastExponent⟩

def one : Binary64 := ⟨false, Nat.pow 2 52, -52⟩

/-- `num * 2 ^ shift / den` as a fraction of natural numbers. -/
def scaled (num den : Nat) (shift : Int) : Nat × Nat :=
  if 0 ≤ shift then (num * Nat.pow 2 shift.toNat, den) else (num, den * Nat.pow 2 (-shift).toNat)

/-- The exponent of the 53-bit grid on which `num / den` is rounded. -/
def gridExponent (num den : Nat) : Int :=
  let estimate : Int := (num.log2 : Int) - den.log2
  let (n, d) := scaled num den (-estimate)
  let leading := if n < d then estimate - 1 else estimate
  max leastExponent (leading - 52)

/-- The number nearest to `num / den`; none where it would be infinite. -/
def ofRatio? (negative : Bool) (num den : Nat) : Option Binary64 :=
  if num = 0 then some ⟨negative, 0, leastExponent⟩
  else
    let exponent := gridExponent num den
    let (n, d) := scaled num den (-exponent)
    let significand := roundDiv n d
    let (significand, exponent) :=
      if significand = Nat.pow 2 53 then (Nat.pow 2 52, exponent + 1) else (significand, exponent)
    if greatestExponent < exponent then none else some ⟨negative, significand, exponent⟩

/-- The number nearest to `coefficient * 10 ^ scale`. Magnitudes far outside the
range are decided by the number of digits, before any power is computed. -/
def ofDecimal? (negative : Bool) (digits : List Char) (scale : Int) : Option Binary64 :=
  let digits := digits.dropWhile (· == '0')
  let coefficient := decimalValue digits
  let magnitude := scale + digits.length
  if coefficient = 0 || magnitude < -330 then some ⟨negative, 0, leastExponent⟩
  else if 310 < magnitude then none
  else if 0 ≤ scale then ofRatio? negative (coefficient * Nat.pow 10 scale.toNat) 1
  else ofRatio? negative coefficient (Nat.pow 10 (-scale).toNat)

/-- The power of ten after a coefficient: nothing, or `e`, an optional sign and digits. -/
def readExponent? : List Char → Option Int
  | [] => some 0
  | c :: rest =>
    if c == 'e' || c == 'E' then
      let (sign, digits) := takeSign rest
      if digits.isEmpty || !digits.all Char.isDigit then none
      else some (sign.apply (decimalValue digits))
    else none

/-- Digits with an optional point and an optional exponent; at least one digit
stands on either side of the point. -/
def readUnsigned? (negative : Bool) (cs : List Char) : Option Binary64 :=
  let whole := cs.takeWhile Char.isDigit
  let rest := cs.dropWhile Char.isDigit
  let (part, rest) := match rest with
    | '.' :: rest => (rest.takeWhile Char.isDigit, rest.dropWhile Char.isDigit)
    | rest => ([], rest)
  if whole.isEmpty && part.isEmpty then none
  else do
    let power ← readExponent? rest
    ofDecimal? negative (whole ++ part) (power - part.length)

/-- A finite number, with blank characters around it and any letters `f` after it. -/
def read? (s : String) : Option Binary64 :=
  let body := Text.dropEnd (fun c => c == 'f' || c == 'F') (Text.trimChars s.toList)
  let (sign, rest) := takeSign body
  readUnsigned? (sign == .minus) rest

def isPositive (x : Binary64) : Bool :=
  !x.negative && x.significand != 0

/-- Equality of values: the two zeros are equal. -/
def sameValue (x y : Binary64) : Bool :=
  x == y || (x.significand == 0 && y.significand == 0)

def exceedsOne (x : Binary64) : Bool :=
  let (n, d) := scaled x.significand 1 x.exponent
  d < n

/-- `x / y` held between zero and one, for a positive `y`. -/
def clampedQuotient (x y : Binary64) : Binary64 :=
  if x.negative then zero
  else
    let (n, d) := scaled x.significand y.significand (x.exponent - y.exponent)
    match ofRatio? false n d with
    | none => one
    | some q => if q.exceedsOne then one else q

def thousandths (x : Binary64) : Nat :=
  let (n, d) := scaled (x.significand * 1000) 1 x.exponent
  roundDiv n d

def digit (n : Nat) : Char :=
  Char.ofNat ('0'.toNat + n % 10)

/-- The digits after the point, without trailing zeros. -/
def placesText (thousandths : Nat) : List Char :=
  Text.dropEnd (· == '0') [digit (thousandths / 100), digit (thousandths / 10), digit thousandths]

/-- The float literal of the generated code: at most three places, and no
negative zero. -/
def literal (x : Binary64) : String :=
  let n := x.thousandths
  let sign := if x.negative && n != 0 then "-" else ""
  let places := placesText n
  let point := if places.isEmpty then "" else "."
  sign ++ toString (n / 1000) ++ point ++ String.ofList places ++ "f"

end Binary64

end LayoutCompose.Number
