import LayoutCompose.Number.Digit
import LayoutCompose.Number.Integer

/-!
# Quoted text

Text stands between double quotes, with escapes, or between single quotes, where
every character is itself. Three quotes open text of several lines: a line break
right after them does not count, and one or two quotes may stand inside, also just
before the three that close it.
-/

namespace LayoutCompose.Toml

def isPlain (c : Char) : Bool :=
  c == '\t' || (' '.toNat ≤ c.toNat && c.toNat != 0x7F)

def lineBreak? : List Char → Option (List Char)
  | '\n' :: rest => some rest
  | '\r' :: '\n' :: rest => some rest
  | _ => none

def isSpaceOrTab (c : Char) : Bool := c == ' ' || c == '\t'

def skipSpaces (cs : List Char) : List Char := cs.dropWhile isSpaceOrTab

def codePoint? (width : Nat) (cs : List Char) : Option Char := do
  let digits := cs.take width
  let values ← digits.mapM (Number.digitIn? 16)
  let n := Number.ofDigits 16 values
  if digits.length = width && n.isValidChar then some (Char.ofNat n) else none

/-- The character of an escape, after the backslash, and what follows it. -/
def escaped? : List Char → Option (Char × List Char)
  | 'b' :: rest => some ('\x08', rest)
  | 'e' :: rest => some ('\x1b', rest)
  | 't' :: rest => some ('\t', rest)
  | 'n' :: rest => some ('\n', rest)
  | 'f' :: rest => some ('\x0c', rest)
  | 'r' :: rest => some ('\r', rest)
  | '"' :: rest => some ('"', rest)
  | '\\' :: rest => some ('\\', rest)
  | 'x' :: rest => (codePoint? 2 rest).map (·, rest.drop 2)
  | 'u' :: rest => (codePoint? 4 rest).map (·, rest.drop 4)
  | 'U' :: rest => (codePoint? 8 rest).map (·, rest.drop 8)
  | _ => none

/-- Text up to a double quote, with escapes. The first argument bounds the steps. -/
def basicText? : Nat → List Char → List Char → Option (String × List Char)
  | 0, _, _ => none
  | _ + 1, text, '"' :: rest => some (String.ofList text.reverse, rest)
  | n + 1, text, '\\' :: rest => do
    let (c, rest) ← escaped? rest
    basicText? n (c :: text) rest
  | n + 1, text, c :: rest => if isPlain c then basicText? n (c :: text) rest else none
  | _ + 1, _, [] => none

def literalText? (cs : List Char) : Option (String × List Char) :=
  let text := cs.takeWhile (· != '\x27')
  match cs.dropWhile (· != '\x27') with
  | _ :: rest => if text.all isPlain then some (String.ofList text, rest) else none
  | [] => none

/-- What a backslash at the end of a line leaves out: the blank rest of the line, and
all blank characters up to the next visible one. -/
def joinedLine? (cs : List Char) : Option (List Char) := do
  let rest ← lineBreak? (skipSpaces cs)
  skipBlankLines rest.length rest
where
  skipBlankLines : Nat → List Char → Option (List Char)
    | 0, cs => some cs
    | n + 1, cs =>
      let rest := skipSpaces cs
      match lineBreak? rest with
      | some rest => skipBlankLines n rest
      | none => some rest

/-- Text of several lines up to three quotes, reversed in the second argument. -/
def linesText? (quote : Char) (escapes : Bool) :
    Nat → List Char → List Char → Option (String × List Char)
  | 0, _, _ => none
  | _ + 1, _, [] => none
  | n + 1, text, c :: rest =>
    if c == quote then
      let run := 1 + (rest.takeWhile (· == quote)).length
      let inner := if run < 3 then run else min (run - 3) 2
      let text := List.replicate inner quote ++ text
      if run < 3 then linesText? quote escapes n text (rest.drop (run - 1))
      else some (String.ofList text.reverse, rest.drop (inner + 2))
    else if escapes && c == '\\' then
      match joinedLine? rest with
      | some rest => linesText? quote escapes n text rest
      | none => do
        let (c, rest) ← escaped? rest
        linesText? quote escapes n (c :: text) rest
    else if isPlain c || c == '\n' then linesText? quote escapes n (c :: text) rest
    else do
      let rest ← lineBreak? (c :: rest)
      linesText? quote escapes n ('\n' :: '\r' :: text) rest

def lines? (quote : Char) (escapes : Bool) (cs : List Char) : Option (String × List Char) :=
  linesText? quote escapes (cs.length + 1) [] ((lineBreak? cs).getD cs)

def quotedLine? : List Char → Option (String × List Char)
  | '"' :: rest => basicText? (rest.length + 1) [] rest
  | '\x27' :: rest => literalText? rest
  | _ => none

def quoted? : List Char → Option (String × List Char)
  | '"' :: '"' :: '"' :: rest => lines? '"' true rest
  | '\x27' :: '\x27' :: '\x27' :: rest => lines? '\x27' false rest
  | cs => quotedLine? cs

end LayoutCompose.Toml
