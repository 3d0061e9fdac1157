import LayoutCompose.Code.Name
import LayoutCompose.Text.Blank
import LayoutCompose.Text.Search

/-!
# Paths

A path is a text with slashes. It may start at the root or with a leading dot; after
that, empty pieces and single dots mean nothing, but they stay in the text wherever
the text is kept.
-/

namespace LayoutCompose.Path

/-- What a path starts with: the root, a leading dot, or nothing. -/
def head (path : String) : String :=
  match path.toList with
  | '/' :: _ => "/"
  | ['.'] => "."
  | '.' :: '/' :: _ => "."
  | _ => ""

def pieces (path : String) : List String :=
  Text.pieces '/' (String.ofList (path.toList.drop (head path).length))

/-- Pieces that mean nothing. -/
def isIdle (piece : String) : Bool := piece == "" || piece == "."

def isAbsolute (path : String) : Bool := head path == "/"

/-- The head, if there is one, and the pieces that mean something. -/
def components (path : String) : List String :=
  (if head path == "" then [] else [head path]) ++ (pieces path).filter (!isIdle ·)

def ofPieces (start : String) (pieces : List String) : String :=
  start ++ "/".intercalate pieces

/-- The pieces up to the last one that means something. -/
def body (path : String) : List String :=
  Text.dropEnd isIdle (pieces path)

def parent? (path : String) : Option String :=
  if body path != [] then some (ofPieces (head path) (Text.dropEnd isIdle (body path).dropLast))
  else if head path == "." then some ""
  else none

/-- The last component, unless it leads to the directory above. -/
def fileName? (path : String) : Option String :=
  (body path).getLast?.filter (· != "..")

/-- The part of a file name before its last dot, and the part after it. A dot at the
very beginning does not count. -/
def splitName (name : String) : String × Option String :=
  let cs := name.toList
  let after := (cs.reverse.takeWhile (· != '.')).reverse
  let before := cs.take (cs.length - after.length - 1)
  if before.isEmpty then (name, none)
  else (String.ofList before, some (String.ofList after))

def extension? (path : String) : Option String :=
  (fileName? path).bind fun name => (splitName name).2

def isLayout (path : String) : Bool := extension? path == some "xml"

def stem (path : String) : String :=
  (fileName? path).elim "layout" fun name => (splitName name).1

/-- A path below another, which an absolute path replaces. -/
def join (left right : String) : String :=
  if isAbsolute right then right
  else if left == "" || Text.endsWith "/" left then left ++ right
  else left ++ "/" ++ right

/-- Drops pieces until `n` of those that mean something are gone. -/
def dropParts : Nat → List String → List String
  | 0, ps => ps
  | _ + 1, [] => []
  | n + 1, p :: ps => if isIdle p then dropParts (n + 1) ps else dropParts n ps

/-- The way from `base` down to `path`, if `path` is `base` or below it. -/
def relativeTo? (base path : String) : Option String :=
  let above := components base
  if !above.isPrefixOf (components path) then none
  else if above.isEmpty then some (ofPieces (head path) (body path))
  else
    let parts := dropParts (above.length - (head path).length) (pieces path)
    some (ofPieces "" (Text.dropEnd isIdle (parts.dropWhile isIdle)))

/-- Where the code of a layout below `root` goes: to the same directory below `out`. -/
def outputFor (root out layout : String) : String :=
  let directory := ((parent? layout).bind (relativeTo? root)).getD ""
  join (join out directory) (Name.fileFor (stem layout))

end LayoutCompose.Path
