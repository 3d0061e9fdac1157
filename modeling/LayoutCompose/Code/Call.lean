import LayoutCompose.Layout.Widget
import LayoutCompose.Number.Binary64
import LayoutCompose.Value.Property

/-!
# Composable calls

Every widget becomes a call of one composable with named parameters. A widget
without a composable of its own becomes a `Box`.
-/

namespace LayoutCompose

inductive Composable where
  | column
  | row
  | box
  | lazyVerticalGrid
  | text
  | button
  | image
  | textField
  | checkbox
  | radioButton
  | toggle
  | linearProgress
  | circularProgress
  | slider
  | dropdownMenuBox
  | androidView
  deriving DecidableEq, Repr

namespace Composable

def name : Composable → String
  | column => "Column"
  | row => "Row"
  | box => "Box"
  | lazyVerticalGrid => "LazyVerticalGrid"
  | text => "Text"
  | button => "Button"
  | image => "Image"
  | textField => "TextField"
  | checkbox => "Checkbox"
  | radioButton => "RadioButton"
  | toggle => "Switch"
  | linearProgress => "LinearProgressIndicator"
  | circularProgress => "CircularProgressIndicator"
  | slider => "Slider"
  | dropdownMenuBox => "ExposedDropdownMenuBox"
  | androidView => "AndroidView"

/-- Whether the call takes a block even if nothing is in it. -/
def needsBlock : Composable → Bool
  | column | row | lazyVerticalGrid | button | dropdownMenuBox => true
  | _ => false

/-- Whether each child stands in an `item` of its own. -/
def wrapsItems : Composable → Bool
  | lazyVerticalGrid => true
  | _ => false

end Composable

inductive Axis where
  | vertical
  | horizontal
  deriving DecidableEq, Repr

abbrev Argument := String × String

structure Call where
  composable : Composable
  arguments : List Argument := []
  scroll : Option Axis := none
  /-- Code at the beginning of the block. -/
  content : Option String := none
  /-- A comment line above the call. -/
  remark : Option String := none
  deriving DecidableEq, Repr

namespace Call

def hasArgument (call : Call) (key : String) : Bool :=
  call.arguments.any (·.1 == key)

/-- The alternatives of a value such as `center|bottom`. -/
def tokens (value : Option String) : List String :=
  match value with
  | some value => (Text.pieces '|' value).map Text.trim
  | none => []

def gravity (ps : Properties) : List String :=
  tokens (ps.raw? "gravity")

def hasAny (given wanted : List String) : Bool :=
  given.any fun token => wanted.contains token

def boolCode (b : Bool) : String :=
  if b then "true" else "false"

def lambda (code : String) : String :=
  "\x7b " ++ code ++ " \x7d"

def optional (key : String) (code : Option String) : List Argument :=
  (code.map fun c => (key, c)).toList

/-! ## Containers -/

def verticalArrangement? (given : List String) : Option String :=
  if hasAny given ["center", "center_vertical"] then some "Arrangement.Center"
  else if hasAny given ["bottom"] then some "Arrangement.Bottom"
  else none

def horizontalAlignment? (given : List String) : Option String :=
  if hasAny given ["center", "center_horizontal"] then some "Alignment.CenterHorizontally"
  else if hasAny given ["end", "right"] then some "Alignment.End"
  else none

def horizontalArrangement? (given : List String) : Option String :=
  if hasAny given ["center", "center_horizontal"] then some "Arrangement.Center"
  else if hasAny given ["end", "right"] then some "Arrangement.End"
  else none

def verticalAlignment? (given : List String) : Option String :=
  if hasAny given ["center", "center_vertical"] then some "Alignment.CenterVertically"
  else if hasAny given ["bottom"] then some "Alignment.Bottom"
  else none

def column (ps : Properties) : Call where
  composable := .column
  arguments :=
    optional "verticalArrangement" (verticalArrangement? (gravity ps)) ++
      optional "horizontalAlignment" (horizontalAlignment? (gravity ps))

def row (ps : Properties) : Call where
  composable := .row
  arguments :=
    optional "horizontalArrangement" (horizontalArrangement? (gravity ps)) ++
      optional "verticalAlignment" (verticalAlignment? (gravity ps))

def boxVertical? (given : List String) : Option String :=
  if hasAny given ["center", "center_vertical"] then some "Center"
  else if hasAny given ["bottom"] then some "Bottom"
  else if hasAny given ["top"] then some "Top"
  else none

def boxHorizontal? (given : List String) : Option String :=
  if hasAny given ["center", "center_horizontal"] then some "Center"
  else if hasAny given ["end", "right"] then some "End"
  else if hasAny given ["start", "left"] then some "Start"
  else none

/-- One of the nine places in a box; a missing direction counts as the start. -/
def boxAlignment? (given : List String) : Option String :=
  match boxVertical? given, boxHorizontal? given with
  | none, none => none
  | some "Center", some "Center" => some "Alignment.Center"
  | vertical, horizontal =>
    some ("Alignment." ++ vertical.getD "Top" ++ horizontal.getD "Start")

def frame (ps : Properties) : Call where
  composable := .box
  arguments := optional "contentAlignment" (boxAlignment? (gravity ps))

def gridColumns (ps : Properties) : Int :=
  match (ps.raw? "columnCount").bind Number.leadingInteger? with
  | some n => if 0 < n then n else 2
  | none => 2

def grid (ps : Properties) : Call where
  composable := .lazyVerticalGrid
  arguments := [("columns", "GridCells.Fixed(" ++ toString (gridColumns ps) ++ ")")]

/-! ## Texts and pictures -/

def emptyText : String := "\"\""

def textAlign? (given : List String) : Option String :=
  given.findSome? fun token =>
    if ["center", "center_horizontal"].contains token then some "TextAlign.Center"
    else if ["end", "right"].contains token then some "TextAlign.End"
    else if ["start", "left"].contains token then some "TextAlign.Start"
    else none

def maxLines? (ps : Properties) : Option String :=
  match (ps.raw? "maxLines").bind Number.leadingInteger? with
  | some n => some (toString n)
  | none => if ps.isTrue "singleLine" then some "1" else none

def whenHas (given : List String) (token code : String) : Option String :=
  if given.contains token then some code else none

def text (ps : Properties) : Call where
  composable := .text
  arguments :=
    let styles := tokens (ps.raw? "textStyle")
    let size := (ps.raw? "textSize").bind Number.leadingInteger?
    ("text", ((ps.get? "text").map (·.textCode)).getD emptyText) ::
      optional "fontSize" (size.map fun n => toString n ++ ".sp") ++
      optional "color" ((ps.get? "textColor").map (·.colorCode)) ++
      optional "fontWeight" (whenHas styles "bold" "FontWeight.Bold") ++
      optional "fontStyle" (whenHas styles "italic" "FontStyle.Italic") ++
      optional "textAlign" (textAlign? (gravity ps)) ++
      optional "maxLines" (maxLines? ps)

def handlerComment (handler : String) : String :=
  Comment.todo ("call " ++ handler ++ "()")

def clickHandler (ps : Properties) : String :=
  match ps.raw? "onClick" with
  | some handler => lambda (handlerComment handler)
  | none => lambda (Comment.todo "handle click")

def button (ps : Properties) : Call where
  composable := .button
  arguments := [("onClick", clickHandler ps)]
  content := (ps.get? "text").map fun p => "Text(" ++ p.textCode ++ ")"

def placeholderPainter (task : String) : String :=
  "painterResource(R.drawable.ic_placeholder) " ++ Comment.todo task

def painter (ps : Properties) : String :=
  match (ps.get? "src").or (ps.get? "srcCompat") with
  | none => placeholderPainter "set image resource"
  | some source =>
    match source.meaning with
    | .code (.resource .drawable name) => (Expr.resource .drawable name).code
    | .code (.resource .mipmap name) => (Expr.resource .mipmap name).code
    | _ => placeholderPainter ("resolve image " ++ source.raw)

def contentScale? : Option String → Option String
  | some "centerCrop" => some "ContentScale.Crop"
  | some "fitCenter" => some "ContentScale.Fit"
  | some "fitXY" => some "ContentScale.FillBounds"
  | some "centerInside" => some "ContentScale.Inside"
  | _ => none

def image (ps : Properties) : Call where
  composable := .image
  arguments :=
    ("painter", painter ps) ::
      ("contentDescription", ((ps.get? "contentDescription").map (·.textCode)).getD "null") ::
      optional "contentScale" (contentScale? (ps.raw? "scaleType"))

/-! ## Input -/

def keyboard? (types : List String) : Option String :=
  if hasAny types ["numberPassword"] then some "NumberPassword"
  else if hasAny types ["textPassword", "textWebPassword"] then some "Password"
  else if hasAny types ["textEmailAddress", "textWebEmailAddress"] then some "Email"
  else if hasAny types ["number", "numberDecimal", "numberSigned"] then some "Number"
  else if hasAny types ["phone"] then some "Phone"
  else if hasAny types ["textUri"] then some "Uri"
  else none

def isPassword (types : List String) : Bool :=
  hasAny types ["textPassword", "numberPassword", "textWebPassword"]

def textField (ps : Properties) : Call where
  composable := .textField
  arguments :=
    let types := tokens (ps.raw? "inputType")
    let keyboard := (keyboard? types).map fun kind =>
      "KeyboardOptions(keyboardType = KeyboardType." ++ kind ++ ")"
    ("value", ((ps.get? "text").map (·.textCode)).getD emptyText) ::
      ("onValueChange", lambda (Comment.todo "update text state")) ::
      optional "placeholder"
        ((ps.get? "hint").map fun p => lambda ("Text(" ++ p.textCode ++ ")")) ++
      optional "singleLine"
        (if ps.isTrue "singleLine" || ps.raw? "maxLines" == some "1" then some "true" else none) ++
      optional "keyboardOptions" keyboard ++
      optional "visualTransformation"
        (if isPassword types then some "PasswordVisualTransformation()" else none)

/-- The remark on a label, which a toggle does not draw. -/
def labelRemark? (ps : Properties) (composable : Composable) : Option String :=
  (ps.get? "text").map fun p =>
    "TODO: label " ++ Comment.oneLine p.textCode ++ " - put it in a Row next to this " ++
      composable.name

def checkable (composable : Composable) (ps : Properties) : Call where
  composable := composable
  arguments := [
    ("checked", boolCode (ps.isTrue "checked")),
    ("onCheckedChange", lambda (Comment.todo "update checked state"))]
  remark := labelRemark? ps composable

def radioButton (ps : Properties) : Call where
  composable := .radioButton
  arguments := [
    ("selected", boolCode (ps.isTrue "checked")),
    ("onClick", lambda (Comment.todo "select this option"))]
  remark := labelRemark? ps .radioButton

/-- The progress as a part of the maximum, which is 100 unless a positive one is given. -/
def fraction? (ps : Properties) : Option Number.Binary64 := do
  let progress ← (ps.raw? "progress").bind Number.Binary64.read?
  let hundred : Number.Binary64 := ⟨false, 100 * Nat.pow 2 46, -46⟩
  let maximum := ((ps.raw? "max").bind Number.Binary64.read?).filter (·.isPositive)
  return progress.clampedQuotient (maximum.getD hundred)

def isHorizontalBar (ps : Properties) : Bool :=
  ((ps.raw? "style").map (Text.contains "Horizontal")).getD false

def progressBar (ps : Properties) : Call where
  composable := if isHorizontalBar ps then .linearProgress else .circularProgress
  arguments :=
    if ps.isTrue "indeterminate" then []
    else optional "progress" ((fraction? ps).map fun x => lambda x.literal)

def slider (ps : Properties) : Call where
  composable := .slider
  arguments := [
    ("value", ((fraction? ps).getD .zero).literal),
    ("onValueChange", lambda (Comment.todo "update slider state")),
    ("valueRange", "0f..1f")]

def dropdown (ps : Properties) : Call where
  composable := .dropdownMenuBox
  arguments := [
    ("expanded", "false"),
    ("onExpandedChange", lambda (Comment.todo "toggle menu"))]
  content :=
    let entries := ((ps.raw? "entries").map fun e => " from " ++ Comment.oneLine e).getD ""
    some ("// TODO: add TextField + ExposedDropdownMenu with the spinner items" ++ entries)

def webView : Call where
  composable := .androidView
  arguments := [
    ("factory", lambda "context -> WebView(context)"),
    ("update", lambda ("webView -> " ++ Comment.todo "webView.loadUrl(url)"))]

def ofWidget (widget : Widget) (ps : Properties) : Call :=
  match widget with
  | .linearLayout => if ps.raw? "orientation" == some "horizontal" then row ps else column ps
  | .frameLayout | .constraintLayout => frame ps
  | .scrollView => { column ps with scroll := some .vertical }
  | .horizontalScrollView => { row ps with scroll := some .horizontal }
  | .gridLayout => grid ps
  | .textView => text ps
  | .button => button ps
  | .imageView => image ps
  | .editText => textField ps
  | .checkBox => checkable .checkbox ps
  | .radioButton => radioButton ps
  | .toggle => checkable .toggle ps
  | .progressBar => progressBar ps
  | .seekBar => slider ps
  | .spinner => dropdown ps
  | .webView => webView
  | .included | .merged | .fragment | .recyclerView | .listView | .gridView
  | .coordinatorLayout | .drawerLayout | .other => { composable := .box }

end Call

end LayoutCompose
