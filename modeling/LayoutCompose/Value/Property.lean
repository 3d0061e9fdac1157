import LayoutCompose.Code.Comment
import LayoutCompose.Code.Literal
import LayoutCompose.Layout.Element
import LayoutCompose.Value.Expr

/-!
# Properties of a view

A property is an attribute under its key, with what its value means for the
generated code. A value is taken as it stands, becomes an expression, or is left as
something to do; preview attributes mean nothing but a comment.
-/

namespace LayoutCompose

inductive Meaning where
  | literal
  | code (expr : Expr)
  /-- A value without an expression: what is left to do, and why. -/
  | unresolved (task reason : String)
  | preview
  deriving DecidableEq, Repr

namespace Meaning

def resource? (value : String) : Option Expr :=
  Resource.all.findSome? fun family =>
    (Text.after? ("@" ++ family.family ++ "/") value).map (.resource family)

def ofSystemColor (value name : String) : Meaning :=
  match Expr.systemColor? name with
  | some expr => code expr
  | none => unresolved ("map system color " ++ value) "unresolved system color"

def ofThemeAttribute (value name : String) : Meaning :=
  match Expr.themeAttribute? name with
  | some expr => code expr
  | none => unresolved ("map theme attribute " ++ value) "unresolved theme attribute"

def ofColorLiteral (value : String) : Meaning :=
  match Argb.read? value with
  | some color => code (.argb color)
  | none => unresolved ("invalid color " ++ value) "malformed color literal"

/-- Values that are no reference with an expression of its own. -/
def ofOther (value : String) : Meaning :=
  if Text.startsWith "@style/" value then
    unresolved ("apply style " ++ value) "styles are not inlined"
  else if Text.startsWith "@\x7b" value then
    unresolved ("data binding " ++ value) "data binding expressions need manual migration"
  else if Text.startsWith "@" value || Text.startsWith "?" value then
    unresolved ("resolve " ++ value) "unrecognized resource reference"
  else if Text.startsWith "#" value then ofColorLiteral value
  else literal

def ofValue (value : String) : Meaning :=
  match resource? value with
  | some expr => code expr
  | none =>
    match Text.after? "@android:color/" value with
    | some name => ofSystemColor value name
    | none =>
      match (Text.after? "?attr/" value).or (Text.after? "?android:attr/" value) with
      | some name => ofThemeAttribute value name
      | none => ofOther value

end Meaning

structure Property where
  key : String
  raw : String
  meaning : Meaning
  deriving DecidableEq, Repr

namespace Property

def ofAttribute (a : Attribute) : Property :=
  match Text.after? "tools:" a.name with
  | some key => ⟨key, a.value, .preview⟩
  | none =>
    let key := ((Text.after? "android:" a.name).or (Text.after? "app:" a.name)).getD a.name
    ⟨key, a.value, .ofValue a.value⟩

def isPreview (p : Property) : Bool := p.meaning == .preview

def value (p : Property) : String :=
  match p.meaning with
  | .literal | .preview => p.raw
  | .code expr => expr.code
  | .unresolved task _ => Comment.todo task

def comment? (p : Property) : Option String :=
  match p.meaning with
  | .literal | .code _ => none
  | .unresolved _ reason => some reason
  | .preview =>
    some ("tools:" ++ p.key ++ "=\"" ++ p.raw ++ "\" is preview-only and not emitted")

/-- The property where text is wanted. -/
def textCode (p : Property) : String :=
  match p.meaning with
  | .code expr => expr.code
  | .unresolved task _ => "\"\" " ++ Comment.todo task
  | .literal | .preview => Literal.quote p.raw

/-- The property where a colour is wanted. -/
def colorCode (p : Property) : String :=
  match p.meaning with
  | .code expr => expr.code
  | .unresolved task _ => "Color.Unspecified " ++ Comment.todo task
  | .literal | .preview =>
    "Color.Unspecified " ++ Comment.todo ("color \"" ++ p.raw ++ "\"")

end Property

abbrev Properties := List Property

namespace Properties

/-- The first property under a key, previews apart. -/
def get? (ps : Properties) (key : String) : Option Property :=
  ps.find? fun p => p.key == key && !p.isPreview

def raw? (ps : Properties) (key : String) : Option String :=
  (ps.get? key).map (·.raw)

def isTrue (ps : Properties) (key : String) : Bool :=
  ps.raw? key == some "true"

def isFalse (ps : Properties) (key : String) : Bool :=
  ps.raw? key == some "false"

def previewComments (ps : Properties) : List String :=
  (ps.filter (·.isPreview)).filterMap (·.comment?)

end Properties

/-- Namespace declarations are no properties. -/
def Element.properties (e : Element) : Properties :=
  (e.attributes.filter fun a => !Text.startsWith "xmlns" a.name).map .ofAttribute

end LayoutCompose
