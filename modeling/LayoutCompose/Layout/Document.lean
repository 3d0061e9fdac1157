import LayoutCompose.Layout.Error
import LayoutCompose.Markup.Reader
import LayoutCompose.Markup.TagContent

/-!
# Reading a layout document

Events build one tree. The elements that are still open form a stack, and a
closed element becomes the last child of the one below it. Limits on depth and
size are checked as each element opens, after its attributes are read.
-/

namespace LayoutCompose

structure Limits where
  maxDepth : Nat := 500
  maxElements : Nat := 10000
  deriving DecidableEq, Repr

structure Document where
  root : Element
  /-- The number of levels of the tree. -/
  depth : Nat
  /-- The number of elements of the tree. -/
  count : Nat

structure OpenElement where
  tag : String
  attributes : List Attribute
  /-- Its complete children, the latest first. -/
  children : List Element

def OpenElement.ofElement (e : Element) : OpenElement :=
  ⟨e.tag, e.attributes, e.children.reverse⟩

def OpenElement.close (e : OpenElement) : Element :=
  ⟨e.tag, e.attributes, e.children.reverse⟩

structure Assembly where
  /-- The open elements, innermost first. -/
  stack : List OpenElement := []
  root : Option Element := none
  depth : Nat := 0
  count : Nat := 0

namespace Assembly

/-- Adds a complete element below the innermost open one, or as the root. -/
def attach (a : Assembly) (e : Element) : Assembly :=
  match a.stack with
  | [] => { a with root := some e }
  | top :: outer => { a with stack := { top with children := e :: top.children } :: outer }

/-- Makes room for one more element on the level below the innermost open one. -/
def makeRoom (limits : Limits) (source : String) (offset : Nat) (a : Assembly) :
    Except LayoutError Assembly :=
  let level := a.stack.length + 1
  if a.stack.isEmpty && a.root.isSome then .error (.inSource source offset .secondRoot)
  else if limits.maxElements < a.count + 1 then .error (.tooLarge limits.maxElements)
  else if limits.maxDepth < level then .error (.tooDeep limits.maxDepth)
  else .ok { a with count := a.count + 1, depth := max a.depth level }

def enter (limits : Limits) (source : String) (offset : Nat) (a : Assembly)
    (content : List Char) : Except LayoutError (Element × Assembly) :=
  match Markup.elementOf content with
  | .error fault => .error (.inSource source offset fault)
  | .ok e =>
    match a.makeRoom limits source offset with
    | .error error => .error error
    | .ok a => .ok (e, a)

/-- Takes one event; `offset` is where the event before it ended. -/
def add (limits : Limits) (source : String) (offset : Nat) (a : Assembly) :
    Markup.Event → Except LayoutError Assembly
  | .ignored => .ok a
  | .opening content =>
    match a.enter limits source offset content with
    | .error error => .error error
    | .ok (e, a) => .ok { a with stack := .ofElement e :: a.stack }
  | .childless content =>
    match a.enter limits source offset content with
    | .error error => .error error
    | .ok (e, a) => .ok (a.attach e)
  | .closing name =>
    match a.stack with
    | [] => .error (.inSource source offset (.strayClose name))
    | top :: outer =>
      if top.tag = name then .ok ({ a with stack := outer }.attach top.close)
      else .error (.inSource source offset (.crossedClose top.tag name))

def finish (source : String) (a : Assembly) : Except LayoutError Document :=
  match a.stack with
  | top :: _ => .error (.inSource source source.utf8ByteSize (.neverClosed top.tag))
  | [] =>
    match a.root with
    | none => .error .noRoot
    | some root => .ok ⟨root, a.depth, a.count⟩

end Assembly

def Document.readFrom (limits : Limits) (source : String) (r : Markup.Reader) (a : Assembly) :
    Except LayoutError Document :=
  match h : r.next with
  | .error (fault, offset) => .error (.inSource source offset fault)
  | .ok none => a.finish source
  | .ok (some (event, r')) =>
    have : r'.rest.length < r.rest.length := Markup.Reader.next_rest_length h
    match a.add limits source r.offset event with
    | .error error => .error error
    | .ok a => readFrom limits source r' a
termination_by r.rest.length

def Document.read (limits : Limits) (source : String) : Except LayoutError Document :=
  readFrom limits source (.ofSource source) {}

end LayoutCompose
