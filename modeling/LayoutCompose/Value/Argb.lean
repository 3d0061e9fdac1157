import LayoutCompose.Number.Digit

/-!
# Colour values

A colour literal has three, four, six or eight hexadecimal digits after `#`. A
short form gives one digit per channel, which counts twice, and a form without
alpha is fully visible.
-/

namespace LayoutCompose

/-- One channel, by its two hexadecimal digits. -/
structure Channel where
  high : Fin 16
  low : Fin 16
  deriving DecidableEq, Repr

namespace Channel

def value (c : Channel) : Nat := 16 * c.high + c.low

def double (d : Fin 16) : Channel := ⟨d, d⟩

def full : Channel := double (Number.lastDigit 15)

def digits (c : Channel) : List Char :=
  [Number.hexDigit c.high, Number.hexDigit c.low]

theorem value_double (d : Fin 16) : (double d).value = 17 * d := by
  simp [value, double]
  omega

end Channel

structure Argb where
  alpha : Channel
  red : Channel
  green : Channel
  blue : Channel
  deriving DecidableEq, Repr

namespace Argb

def ofDigits? : List (Fin 16) → Option Argb
  | [r, g, b] => some ⟨.full, .double r, .double g, .double b⟩
  | [a, r, g, b] => some ⟨.double a, .double r, .double g, .double b⟩
  | [r, r', g, g', b, b'] => some ⟨.full, ⟨r, r'⟩, ⟨g, g'⟩, ⟨b, b'⟩⟩
  | [a, a', r, r', g, g', b, b'] => some ⟨⟨a, a'⟩, ⟨r, r'⟩, ⟨g, g'⟩, ⟨b, b'⟩⟩
  | _ => none

def read? (s : String) : Option Argb :=
  match s.toList with
  | '#' :: digits => (digits.mapM Number.hexDigit?).bind ofDigits?
  | _ => none

def code (c : Argb) : String :=
  "Color(0x" ++
    String.ofList (c.alpha.digits ++ c.red.digits ++ c.green.digits ++ c.blue.digits) ++ ")"

end Argb

end LayoutCompose
