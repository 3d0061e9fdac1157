import LayoutCompose.Number.Binary64
import LayoutCompose.Number.Digit
import LayoutCompose.Toml.Value

/-!
# Scalars without quotes

Numbers, truth values, dates and times are runs of characters up to a blank or a sign of
the document's own. A run is read as a whole and must have one of the forms below. The
form of a whole number is loose: only using the number shows that digits are missing or
wrong.
-/

namespace LayoutCompose.Toml

/-! ## Underscores -/

def underscoresBetween (isDigit : Char → Bool) : List Char → Bool
  | a :: '_' :: b :: rest => isDigit a && isDigit b && underscoresBetween isDigit (b :: rest)
  | '_' :: _ => false
  | _ :: rest => underscoresBetween isDigit rest
  | [] => true

def withoutUnderscores (cs : List Char) : List Char := cs.filter (· != '_')

/-! ## Whole numbers -/

def isDigitIn (base : Nat) (c : Char) : Bool := (Number.digitIn? base c).isSome

/-- Numbers of 128 bits, with a sign or without. -/
def inRange (n : Int) : Option Int :=
  if -(Nat.pow 2 127 : Int) ≤ n && n < (Nat.pow 2 128 : Int) then some n else none

/-- A number after the sign of its base. Without any digit it has no value. -/
def basedInteger? (base : Nat) (cs : List Char) : Option (Option Int) :=
  let digits := withoutUnderscores cs
  if underscoresBetween (isDigitIn 16) cs && digits.all (isDigitIn base) then
    some (if digits.isEmpty then none
      else inRange (Number.ofDigits base (digits.map fun c => (Number.digitIn? base c).getD 0)))
  else none

/-- Whether a decimal number may go on like this after its first digits: not at all, or
after an underscore, but not as a floating-point number. -/
def isLooseTail : List Char → Bool
  | [] => true
  | c :: rest => c == '_' && rest.all fun d => d != '.' && d != 'e' && d != 'E'

/-- A decimal number, which has no zero in front of other digits. From the first
underscore on only the neighbours of underscores are looked at, and hexadecimal digits
pass there; but with anything else than decimal digits the number has no value. -/
def decimalInteger? (cs : List Char) : Option (Option Int) :=
  let (sign, body) := Number.takeSign cs
  match body with
  | [] | '0' :: _ :: _ => none
  | first :: _ =>
    if first.isDigit && isLooseTail (body.dropWhile Char.isDigit) &&
        underscoresBetween (isDigitIn 16) body then
      let digits := withoutUnderscores body
      some (if digits.all Char.isDigit then inRange (sign.apply (Number.decimalValue digits))
        else none)
    else none

def integer? : List Char → Option (Option Int)
  | '0' :: 'x' :: digits => basedInteger? 16 digits
  | '0' :: 'o' :: digits => basedInteger? 8 digits
  | '0' :: 'b' :: digits => basedInteger? 2 digits
  | cs => decimalInteger? cs

/-! ## Floating-point numbers -/

def isFloatForm (cs : List Char) : Bool :=
  let whole := cs.takeWhile Char.isDigit
  !whole.isEmpty &&
    match cs.drop whole.length with
    | '.' :: rest =>
      let part := rest.takeWhile Char.isDigit
      !part.isEmpty && (Number.Binary64.readExponent? (rest.drop part.length)).isSome
    | rest => !rest.isEmpty && (Number.Binary64.readExponent? rest).isSome

/-- A floating-point number, which has no zero in front of other digits: whether it is
within the range of double precision. -/
def float? (cs : List Char) : Option Bool :=
  let body := (Number.takeSign cs).2
  let digits := withoutUnderscores body
  if !underscoresBetween Char.isDigit body || !isFloatForm digits then none
  else
    match digits.takeWhile Char.isDigit with
    | '0' :: _ :: _ => none
    | _ => some (Number.Binary64.readUnsigned? false digits).isSome

def isSpecialFloat (cs : List Char) : Bool :=
  let body := String.ofList (Number.takeSign cs).2
  body == "inf" || body == "nan"

/-! ## Dates and times -/

/-- A number of exactly `width` digits, and what follows it. -/
def fixedDigits? (width : Nat) (cs : List Char) : Option (Nat × List Char) :=
  let digits := cs.take width
  if digits.length = width && digits.all Char.isDigit then
    some (Number.decimalValue digits, cs.drop width)
  else none

def expect? (c : Char) : List Char → Option (List Char)
  | d :: rest => if d == c then some rest else none
  | [] => none

def isLeapYear (year : Nat) : Bool :=
  year % 4 == 0 && (year % 100 != 0 || year % 400 == 0)

def daysIn (year month : Nat) : Nat :=
  if month == 2 then (if isLeapYear year then 29 else 28)
  else if [4, 6, 9, 11].contains month then 30
  else 31

/-- A date; the result is what follows it. -/
def date? (cs : List Char) : Option (List Char) := do
  let (year, rest) ← fixedDigits? 4 cs
  let (month, rest) ← fixedDigits? 2 (← expect? '-' rest)
  let (day, rest) ← fixedDigits? 2 (← expect? '-' rest)
  if 1 ≤ month && month ≤ 12 && 1 ≤ day && day ≤ daysIn year month then some rest else none

def seconds? (cs : List Char) : Option (List Char) := do
  let (second, rest) ← fixedDigits? 2 cs
  if second ≤ 60 then
    match rest with
    | '.' :: part =>
      if (part.takeWhile Char.isDigit).isEmpty then none else some (part.dropWhile Char.isDigit)
    | rest => some rest
  else none

def time? (cs : List Char) : Option (List Char) := do
  let (hour, rest) ← fixedDigits? 2 cs
  let (minute, rest) ← fixedDigits? 2 (← expect? ':' rest)
  if hour ≤ 23 && minute ≤ 59 then
    match rest with
    | ':' :: rest => seconds? rest
    | rest => some rest
  else none

def isOffset : List Char → Bool
  | [] | ['Z'] | ['z'] => true
  | c :: rest =>
    (c == '+' || c == '-') &&
      match (do
        let (hour, rest) ← fixedDigits? 2 rest
        let (minute, rest) ← fixedDigits? 2 (← expect? ':' rest)
        return (hour, minute, rest)) with
      | some (hour, minute, rest) => hour ≤ 23 && minute ≤ 59 && rest.isEmpty
      | none => false

def isTimeMark (c : Char) : Bool := c == 'T' || c == 't' || c == ' '

def isDateTime (cs : List Char) : Bool :=
  match date? cs with
  | some [] => true
  | some (mark :: rest) =>
    isTimeMark mark &&
      match time? rest with
      | some rest => isOffset rest
      | none => false
  | none =>
    match time? cs with
    | some rest => rest.isEmpty
    | none => false

def scalar? (cs : List Char) : Option Value :=
  let text := String.ofList cs
  if text == "true" then some (.boolean true)
  else if text == "false" then some (.boolean false)
  else if isDateTime cs then some (.dateTime text)
  else if isSpecialFloat cs then some (.float true)
  else ((float? cs).map .float).or ((integer? cs).map .integer)

end LayoutCompose.Toml
