import LayoutCompose.Code.Comment
import LayoutCompose.Diagnostic.Basic
import LayoutCompose.Text.Blank

/-!
# Source files

A source file is made of the import block, a comment that lists the diagnostics, and
the code, with a blank line between the parts that are there.
-/

namespace LayoutCompose.Source

/-- One line of the list, in which the text can neither break the line nor end the
comment. -/
def itemLine (d : Diagnostic) : String :=
  " *  - " ++ Comment.guarded (Comment.oneLine d.text)

def section? (title : String) (items : List Diagnostic) : Option (List String) :=
  if items.isEmpty then none else some ((" * " ++ title) :: items.map itemLine)

def sectionLines (warnings suggestions : List Diagnostic) : List String :=
  match section? "Warnings:" warnings, section? "Suggestions:" suggestions with
  | some first, some second => first ++ " *" :: second
  | some first, none => first
  | none, second => second.getD []

/-- The comment that lists all diagnostics; none without any. -/
def listing? (warnings suggestions : List Diagnostic) : Option String :=
  if warnings.isEmpty && suggestions.isEmpty then none
  else some (String.intercalate "\n" ("/*" :: sectionLines warnings suggestions ++ [" */"]))

/-- The parts that hold anything, and a final line feed. -/
def assemble (imports : String) (listing : Option String) (code : String) : String :=
  let parts := (imports :: listing.toList ++ [code]).filter fun part => !Text.isBlankText part
  String.intercalate "\n\n" parts ++ "\n"

end LayoutCompose.Source
