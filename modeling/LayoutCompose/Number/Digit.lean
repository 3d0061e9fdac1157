/-!
# Digits

Digits of a base up to sixteen, in either case.
-/

namespace LayoutCompose.Number

def lastDigit (n : Nat) : Fin 16 := Fin.ofNat 16 n

def hexDigit? (c : Char) : Option (Fin 16) :=
  if '0' ≤ c && c ≤ '9' then some (lastDigit (c.toNat - '0'.toNat))
  else if 'a' ≤ c && c ≤ 'f' then some (lastDigit (c.toNat - 'a'.toNat + 10))
  else if 'A' ≤ c && c ≤ 'F' then some (lastDigit (c.toNat - 'A'.toNat + 10))
  else none

def digitIn? (base : Nat) (c : Char) : Option Nat :=
  ((hexDigit? c).map Fin.val).filter (· < base)

def hexDigit (d : Fin 16) : Char :=
  if d < 10 then Char.ofNat ('0'.toNat + d) else Char.ofNat ('A'.toNat + (d - 10))

theorem hexDigit?_hexDigit (d : Fin 16) : hexDigit? (hexDigit d) = some d := by
  revert d
  decide

end LayoutCompose.Number
