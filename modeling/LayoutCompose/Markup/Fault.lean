/-!
# Faults in markup

Every reason for which a text is not a well-formed layout document, and its
wording. Offsets inside a fault are byte positions in the tag or in the attribute
value that it is about.
-/

namespace LayoutCompose.Markup

inductive ReferenceFault where
  | signed
  | empty
  | badDigit
  | tooLarge
  | zero
  | notCharacter (code : Nat)
  deriving DecidableEq, Repr

def ReferenceFault.message : ReferenceFault → String
  | .signed => "unexpected number sign"
  | .empty => "cannot parse integer from empty string"
  | .badDigit => "invalid digit found in string"
  | .tooLarge => "number too large to fit in target type"
  | .zero => "0x0 character is not permitted in XML"
  | .notCharacter code => "`" ++ toString code ++ "` is not a valid codepoint"

inductive Fault where
  | unknownDeclaration
  | unclosedInstruction
  | unclosedComment
  | unclosedDoctype
  | unclosedCharacterData
  | unclosedTag
  | doctypeWithoutName
  /-- A closing tag that does not match the innermost open element. -/
  | mismatchedClose (expected found : String)
  /-- A closing tag where no element is open. -/
  | unmatchedClose (found : String)
  | keyWithoutEquals (position : Nat)
  | valueMissing (position : Nat)
  | valueUnquoted (position : Nat)
  | quoteMissing (position : Nat) (quote : Char)
  | entityUnterminated (start stop : Nat)
  | entityUnknown (start stop : Nat) (name : String)
  | reference (fault : ReferenceFault)
  | secondRoot
  | neverClosed (tag : String)
  /-- A closing tag that reached the tree with no element open there. -/
  | strayClose (found : String)
  /-- A closing tag that reached the tree with another element innermost there. -/
  | crossedClose (expected found : String)
  deriving DecidableEq, Repr

namespace Fault

def notFound (what closing : String) : String :=
  "syntax error: " ++ what ++ " not closed: `" ++ closing ++ "` not found before end of input"

def message : Fault → String
  | unknownDeclaration => "syntax error: unknown or missed symbol in markup"
  | unclosedInstruction => notFound "processing instruction or xml declaration" "?>"
  | unclosedComment => notFound "comment" "-->"
  | unclosedDoctype => notFound "DOCTYPE" ">"
  | unclosedCharacterData => notFound "CDATA" "]]>"
  | unclosedTag => notFound "tag" ">"
  | doctypeWithoutName =>
    "ill-formed document: `<!DOCTYPE>` declaration does not contain a name of a document type"
  | mismatchedClose expected found =>
    "ill-formed document: expected `</" ++ expected ++ ">`, but `</" ++ found ++ ">` was found"
  | unmatchedClose found =>
    "ill-formed document: close tag `</" ++ found ++ ">` does not match any open tag"
  | keyWithoutEquals position =>
    "position " ++ toString position ++
      ": attribute key must be directly followed by `=` or space"
  | valueMissing position =>
    "position " ++ toString position ++ ": `=` must be followed by an attribute value"
  | valueUnquoted position =>
    "position " ++ toString position ++ ": attribute value must be enclosed in `\"` or `'`"
  | quoteMissing position quote =>
    "position " ++ toString position ++ ": missing closing quote `" ++ String.ofList [quote] ++
      "` in attribute value"
  | entityUnterminated start stop =>
    "Error while escaping character at range " ++ toString start ++ ".." ++ toString stop ++
      ": Cannot find ';' after '&'"
  | entityUnknown start stop name =>
    "at " ++ toString start ++ ".." ++ toString stop ++ ": unrecognized entity `" ++ name ++ "`"
  | reference fault => "invalid character reference: " ++ fault.message
  | secondRoot => "document has more than one root element"
  | neverClosed tag => "element <" ++ tag ++ "> is never closed"
  | strayClose found => "unexpected closing tag </" ++ found ++ ">"
  | crossedClose expected found => "expected </" ++ expected ++ ">, found </" ++ found ++ ">"

end Fault

end LayoutCompose.Markup
