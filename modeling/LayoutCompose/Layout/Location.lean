/-!
# Places in a source text

A byte offset into a text is shown as a line and a column, both counted from
one. Columns count characters. The characters before an offset are those whose
encoding starts before it, so an offset inside a character counts that character
and one past the end shows the end.
-/

namespace LayoutCompose

structure Location where
  line : Nat
  column : Nat
  deriving DecidableEq, Repr

namespace Location

def start : Location := ⟨1, 1⟩

def advance (here : Location) (c : Char) : Location :=
  if c = '\n' then ⟨here.line + 1, 1⟩ else ⟨here.line, here.column + 1⟩

/-- Moves over the characters that start within the next `bytes` bytes. -/
def walk : List Char → Nat → Location → Location
  | [], _, here => here
  | c :: rest, bytes, here =>
    if bytes = 0 then here else walk rest (bytes - c.utf8Size) (here.advance c)

def ofOffset (source : String) (offset : Nat) : Location :=
  walk source.toList offset start

def describe (here : Location) (message : String) : String :=
  "[Line " ++ toString here.line ++ ":" ++ toString here.column ++ "] " ++ message

end Location

end LayoutCompose
