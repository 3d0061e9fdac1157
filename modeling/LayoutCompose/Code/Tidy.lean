import LayoutCompose.Text.Blank

/-!
# Tidy code

Three passes over a text: commas before a closing bracket on a later line go, then
spaces and tabs at line ends, then blank lines after a blank line. Blank lines have no
spaces or tabs left when the third pass meets them, so it looks at line feeds alone. The
text is trimmed at last.
-/

namespace LayoutCompose.Tidy

def isIndent (c : Char) : Bool := c == ' ' || c == '\t'

def isCloser (c : Char) : Bool := c == ')' || c == '}' || c == ']'

/-- Whether blank characters with a line feed, then indentation, then a closing
bracket come next. -/
def closesNext (cs : List Char) : Bool :=
  let blank := cs.takeWhile Text.isBlank
  let last := Text.dropEnd isIndent blank
  last.getLast? == some '\n' && ((cs.dropWhile Text.isBlank).head?.map isCloser).getD false

/-- Drops the commas in the rest of a text; `done` is the beginning in reverse. -/
def dropCommasFrom (done : List Char) : List Char → List Char
  | [] => done.reverse
  | c :: rest =>
    dropCommasFrom (if c == ',' && closesNext rest then done else c :: done) rest

def dropCommas (cs : List Char) : List Char :=
  dropCommasFrom [] cs

def atLineEnd (rest : List Char) : Bool :=
  match rest with
  | [] => true
  | c :: _ => c == '\n'

def indentStep (c : Char) (rest : List Char) : List Char :=
  if isIndent c && atLineEnd rest then rest else c :: rest

def dropTrailing (cs : List Char) : List Char :=
  cs.foldr indentStep []

def beforeBlankLine : List Char → Bool
  | '\n' :: '\n' :: _ => true
  | _ => false

def breakStep (c : Char) (rest : List Char) : List Char :=
  if c == '\n' && beforeBlankLine rest then rest else c :: rest

/-- Line feeds after two line feeds go. -/
def collapseBreaks (cs : List Char) : List Char :=
  cs.foldr breakStep []

def tidyChars (cs : List Char) : List Char :=
  Text.trimChars (collapseBreaks (dropTrailing (dropCommas cs)))

def tidy (code : String) : String :=
  String.ofList (tidyChars code.toList)

end LayoutCompose.Tidy
