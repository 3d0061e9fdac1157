import LayoutCompose.Text.Blank

/-!
# Leading integers

A dimension such as `16dp` is read for the integer it starts with; what follows
the digits does not matter. Integers are bounded by 64 bits with a sign.
-/

namespace LayoutCompose.Number

/-- The value of a decimal digit; other characters count as zero. -/
def digitValue (c : Char) : Nat :=
  if c.isDigit then c.toNat - '0'.toNat else 0

def ofDigits (base : Nat) (digits : List Nat) : Nat :=
  digits.foldl (fun value d => base * value + d) 0

def decimalValue (digits : List Char) : Nat :=
  ofDigits 10 (digits.map digitValue)

def maxInteger : Nat := 9223372036854775807

inductive Sign where
  | plus
  | minus
  deriving DecidableEq, Repr

def Sign.apply : Sign → Nat → Int
  | .plus, n => n
  | .minus, n => -n

def takeSign : List Char → Sign × List Char
  | '-' :: rest => (.minus, rest)
  | '+' :: rest => (.plus, rest)
  | rest => (.plus, rest)

/-- The integer at the beginning of a text, after blank characters and one
optional sign. There is none if no digit follows or if it is too large. -/
def leadingInteger? (s : String) : Option Int :=
  let (sign, rest) := takeSign (s.toList.dropWhile Text.isBlank)
  let digits := rest.takeWhile Char.isDigit
  if digits.isEmpty || maxInteger < decimalValue digits then none
  else some (sign.apply (decimalValue digits))

end LayoutCompose.Number
