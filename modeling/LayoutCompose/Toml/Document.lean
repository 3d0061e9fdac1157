import LayoutCompose.Toml.Quoted
import LayoutCompose.Toml.Scalar
import LayoutCompose.Toml.Value

/-!
# TOML documents

A document is read line by line: bindings of keys to values, headers, comments and
blank lines. Every reader takes what it knows off the front of the text and gives
the rest; a reader that fails, fails the document. Values nest to a bounded depth.
-/

namespace LayoutCompose.Toml

/-- How deep values nest, and how many keys a dotted key has at most. -/
def maxNesting : Nat := 80

/-! ## Line ends -/

def skipComment? : List Char → Option (List Char)
  | '#' :: rest =>
    let rest := rest.dropWhile isPlain
    if rest.isEmpty || (lineBreak? rest).isSome then some rest else none
  | cs => some cs

def endOfLine? (cs : List Char) : Option (List Char) := do
  let rest ← skipComment? (skipSpaces cs)
  if rest.isEmpty then some [] else lineBreak? rest

/-- Blank lines and comments, as they may stand inside an array or an inline table. -/
def skipLines? : Nat → List Char → Option (List Char)
  | 0, cs => some cs
  | n + 1, cs => do
    let rest ← skipComment? (skipSpaces cs)
    match lineBreak? rest with
    | some rest => skipLines? n rest
    | none => some rest

/-! ## Keys -/

def isBareKey (c : Char) : Bool := c.isAlphanum || c == '_' || c == '-'

def simpleKey? (cs : List Char) : Option (String × List Char) :=
  let bare := cs.takeWhile isBareKey
  if bare.isEmpty then quotedLine? cs
  else some (String.ofList bare, cs.drop bare.length)

/-- A dotted key of so many keys at most: those before the last one, the last one, and
what follows. -/
def dottedKey? : Nat → List Char → Option (List String × String × List Char)
  | 0, _ => none
  | n + 1, cs => do
    let (first, rest) ← simpleKey? (skipSpaces cs)
    match skipSpaces rest with
    | '.' :: rest => do
      let (path, last, rest) ← dottedKey? n rest
      return (first :: path, last, rest)
    | rest => return ([], first, rest)

def key? (cs : List Char) : Option (List String × String × List Char) := dottedKey? maxNesting cs

/-! ## Values -/

def boundaries : List Char :=
  ['=', ',', '[', ']', '\x7b', '\x7d', '#', ' ', '\t', '\r', '\n']

def isScalarChar (c : Char) : Bool := !boundaries.contains c

/-- The run of characters of a scalar. A date takes the time after one space along. -/
def scalarRun (cs : List Char) : List Char × List Char :=
  let run := cs.takeWhile isScalarChar
  let rest := cs.drop run.length
  match date? run, rest with
  | some [], ' ' :: d :: _ =>
    if d.isDigit then
      let time := rest.tail.takeWhile isScalarChar
      (run ++ ' ' :: time, rest.tail.drop time.length)
    else (run, rest)
  | _, _ => (run, rest)

mutual
/-- A value. The first argument bounds the steps, the second the nesting. -/
def value? (fuel levels : Nat) (cs : List Char) : Option (Value × List Char) :=
  match fuel with
  | 0 => none
  | fuel + 1 =>
    match cs with
    | '"' :: _ | '\x27' :: _ => do
      let (text, rest) ← quoted? cs
      return (.string text, rest)
    | '[' :: rest =>
      match levels with
      | 0 => none
      | levels + 1 => do
        let (items, rest) ← items? fuel levels rest
        return (.array items, rest)
    | '\x7b' :: rest =>
      match levels with
      | 0 => none
      | levels + 1 => do
        let (bindings, rest) ← bindings? fuel levels rest
        let entries ← bindAll bindings []
        return (.table (entriesToValue entries), rest)
    | cs => do
      let (run, rest) := scalarRun cs
      let v ← scalar? run
      return (v, rest)
def items? (fuel levels : Nat) (cs : List Char) : Option (List Value × List Char) :=
  match fuel with
  | 0 => none
  | fuel + 1 => do
    match ← skipLines? fuel cs with
    | ']' :: rest => return ([], rest)
    | rest => do
      let (v, rest) ← value? fuel levels rest
      match ← skipLines? fuel rest with
      | ',' :: rest => do
        let (items, rest) ← items? fuel levels rest
        return (v :: items, rest)
      | ']' :: rest => return ([v], rest)
      | _ => none
def bindings? (fuel levels : Nat) (cs : List Char) : Option (List Binding × List Char) :=
  match fuel with
  | 0 => none
  | fuel + 1 => do
    match ← skipLines? fuel cs with
    | '\x7d' :: rest => return ([], rest)
    | rest => do
      let (path, key, rest) ← key? rest
      let rest ← expect? '=' (← skipLines? fuel rest)
      let (v, rest) ← value? fuel levels (← skipLines? fuel rest)
      match ← skipLines? fuel rest with
      | ',' :: rest => do
        let (bindings, rest) ← bindings? fuel levels rest
        return (⟨path, key, v⟩ :: bindings, rest)
      | '\x7d' :: rest => return ([⟨path, key, v⟩], rest)
      | _ => none
end

/-! ## Lines

The bound of the readers below is at least the length of the text. -/

def binding? (bound : Nat) (cs : List Char) : Option (Binding × List Char) := do
  let (path, key, rest) ← key? cs
  let (v, rest) ← value? (2 * bound + 2) maxNesting (skipSpaces (← expect? '=' rest))
  return (⟨path, key, v⟩, rest)

def header? (cs : List Char) : Option (Header × List Char) :=
  match cs with
  | '[' :: rest => do
    let (path, key, rest) ← key? rest
    return (.double path key, ← expect? ']' (← expect? ']' rest))
  | cs => do
    let (path, key, rest) ← key? cs
    return (.single path key, ← expect? ']' rest)

/-- The lines of a document: the bindings before the first header, then the sections. -/
def lines : Nat → List Char → Option (List Binding × List Section)
  | 0, _ => none
  | n + 1, cs =>
    match skipSpaces cs with
    | [] => some ([], [])
    | '[' :: rest => do
      let (header, rest) ← header? rest
      let (bindings, sections) ← lines n (← endOfLine? rest)
      return ([], ⟨header, bindings⟩ :: sections)
    | c :: rest =>
      if c == '#' || (lineBreak? (c :: rest)).isSome then do lines n (← endOfLine? (c :: rest))
      else do
        let (b, rest) ← binding? (n + 1) (c :: rest)
        let (bindings, sections) ← lines n (← endOfLine? rest)
        return (b :: bindings, sections)

/-- The table that a document stands for. A byte order mark may come first. -/
def parse? (text : String) : Option (List (String × Value)) := do
  let cs :=
    match text.toList with
    | '\uFEFF' :: rest => rest
    | cs => cs
  let (bindings, sections) ← lines (cs.length + 1) cs
  assemble bindings sections

end LayoutCompose.Toml
