/-!
# String literals of generated code

A layout text may hold backslash escapes of its own. Those for a line break, a tab,
a backslash, a quote and a code point are kept; before any other character the
backslash is dropped. Quotes, dollar signs and line breaks are escaped.
-/

namespace LayoutCompose.Literal

/-- A character that stands for itself in the layout. -/
def plain : Char → List Char
  | '"' => ['\\', '"']
  | '$' => ['\\', '$']
  | '\n' => ['\\', 'n']
  | '\r' => ['\\', 'r']
  | c => [c]

/-- A character after a backslash in the layout. -/
def escaped : Char → List Char
  | 'n' => ['\\', 'n']
  | 't' => ['\\', 't']
  | '\\' => ['\\', '\\']
  | '"' => ['\\', '"']
  | 'u' => ['\\', 'u']
  | c => [c]

def body : List Char → List Char
  | [] => []
  | ['\\'] => ['\\', '\\']
  | '\\' :: c :: rest => escaped c ++ body rest
  | c :: rest => plain c ++ body rest

def quote (raw : String) : String :=
  String.ofList ('"' :: body raw.toList ++ ['"'])

end LayoutCompose.Literal
