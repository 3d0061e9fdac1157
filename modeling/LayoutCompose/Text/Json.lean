import LayoutCompose.Number.Digit

/-!
# JSON text

Values laid out over several lines, two spaces deeper at each level. Lists and objects
that hold nothing stay on one line.
-/

namespace LayoutCompose

inductive JsonValue where
  | bool (b : Bool)
  | string (s : String)
  | list (items : List JsonValue)
  | object (fields : List (String × JsonValue))

namespace JsonValue

/-- A digit of an escape, which is in lower case. -/
def escapeDigit (n : Nat) : Char := (Number.hexDigit (Number.lastDigit n)).toLower

/-- What is escaped are the quote, the backslash and the characters below a space. -/
def escape (c : Char) : List Char :=
  if c == '"' then ['\\', '"']
  else if c == '\\' then ['\\', '\\']
  else if c == '\x08' then ['\\', 'b']
  else if c == '\x0c' then ['\\', 'f']
  else if c == '\n' then ['\\', 'n']
  else if c == '\r' then ['\\', 'r']
  else if c == '\t' then ['\\', 't']
  else if c < ' ' then ['\\', 'u', '0', '0', escapeDigit (c.toNat / 16), escapeDigit (c.toNat % 16)]
  else [c]

def quote (s : String) : String :=
  "\"" ++ String.ofList (s.toList.flatMap escape) ++ "\""

def lineStart (level : Nat) : String :=
  "\n" ++ String.ofList (List.replicate (2 * level) ' ')

def enclose (level : Nat) (opening closing : String) (parts : List String) : String :=
  if parts.isEmpty then opening ++ closing
  else
    opening ++ lineStart (level + 1) ++ ("," ++ lineStart (level + 1)).intercalate parts ++
      lineStart level ++ closing

mutual
def layOut (level : Nat) : JsonValue → String
  | .bool b => if b then "true" else "false"
  | .string s => quote s
  | .list items => enclose level "[" "]" (layOutItems (level + 1) items)
  | .object fields => enclose level "\x7b" "\x7d" (layOutFields (level + 1) fields)
def layOutItems (level : Nat) : List JsonValue → List String
  | [] => []
  | item :: rest => layOut level item :: layOutItems level rest
def layOutFields (level : Nat) : List (String × JsonValue) → List String
  | [] => []
  | (key, value) :: rest => (quote key ++ ": " ++ layOut level value) :: layOutFields level rest
end

end JsonValue

end LayoutCompose
