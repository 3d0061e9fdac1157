import LayoutCompose.Code.Call
import LayoutCompose.Layout.Widget
import LayoutCompose.Value.Dimension

/-!
# Imports of generated code

The imports are found from tags and properties alone, without a look at the
generated calls. The import block lists known paths in their order, so it does not
depend on the order of the elements.
-/

namespace LayoutCompose

inductive Import where
  | webView
  | image
  | background
  | clickable
  | focusable
  | horizontalScroll
  | arrangement
  | box
  | column
  | row
  | fillMaxHeight
  | fillMaxSize
  | fillMaxWidth
  | height
  | heightIn
  | padding
  | size
  | width
  | widthIn
  | gridCells
  | lazyVerticalGrid
  | rememberScrollState
  | keyboardOptions
  | verticalScroll
  | button
  | checkbox
  | circularProgressIndicator
  | experimentalMaterial3Api
  | exposedDropdownMenuBox
  | linearProgressIndicator
  | materialTheme
  | radioButton
  | slider
  | toggle
  | text
  | textField
  | composable
  | alignment
  | modifier
  | alpha
  | rotate
  | scale
  | color
  | contentScale
  | colorResource
  | dimensionResource
  | painterResource
  | stringResource
  | fontStyle
  | fontWeight
  | keyboardType
  | passwordVisualTransformation
  | textAlign
  | dp
  | sp
  | androidView
  deriving DecidableEq, Repr

namespace Import

def path : Import → String
  | webView => "android.webkit.WebView"
  | image => "androidx.compose.foundation.Image"
  | background => "androidx.compose.foundation.background"
  | clickable => "androidx.compose.foundation.clickable"
  | focusable => "androidx.compose.foundation.focusable"
  | horizontalScroll => "androidx.compose.foundation.horizontalScroll"
  | arrangement => "androidx.compose.foundation.layout.Arrangement"
  | box => "androidx.compose.foundation.layout.Box"
  | column => "androidx.compose.foundation.layout.Column"
  | row => "androidx.compose.foundation.layout.Row"
  | fillMaxHeight => "androidx.compose.foundation.layout.fillMaxHeight"
  | fillMaxSize => "androidx.compose.foundation.layout.fillMaxSize"
  | fillMaxWidth => "androidx.compose.foundation.layout.fillMaxWidth"
  | height => "androidx.compose.foundation.layout.height"
  | heightIn => "androidx.compose.foundation.layout.heightIn"
  | padding => "androidx.compose.foundation.layout.padding"
  | size => "androidx.compose.foundation.layout.size"
  | width => "androidx.compose.foundation.layout.width"
  | widthIn => "androidx.compose.foundation.layout.widthIn"
  | gridCells => "androidx.compose.foundation.lazy.grid.GridCells"
  | lazyVerticalGrid => "androidx.compose.foundation.lazy.grid.LazyVerticalGrid"
  | rememberScrollState => "androidx.compose.foundation.rememberScrollState"
  | keyboardOptions => "androidx.compose.foundation.text.KeyboardOptions"
  | verticalScroll => "androidx.compose.foundation.verticalScroll"
  | button => "androidx.compose.material3.Button"
  | checkbox => "androidx.compose.material3.Checkbox"
  | circularProgressIndicator => "androidx.compose.material3.CircularProgressIndicator"
  | experimentalMaterial3Api => "androidx.compose.material3.ExperimentalMaterial3Api"
  | exposedDropdownMenuBox => "androidx.compose.material3.ExposedDropdownMenuBox"
  | linearProgressIndicator => "androidx.compose.material3.LinearProgressIndicator"
  | materialTheme => "androidx.compose.material3.MaterialTheme"
  | radioButton => "androidx.compose.material3.RadioButton"
  | slider => "androidx.compose.material3.Slider"
  | toggle => "androidx.compose.material3.Switch"
  | text => "androidx.compose.material3.Text"
  | textField => "androidx.compose.material3.TextField"
  | composable => "androidx.compose.runtime.Composable"
  | alignment => "androidx.compose.ui.Alignment"
  | modifier => "androidx.compose.ui.Modifier"
  | alpha => "androidx.compose.ui.draw.alpha"
  | rotate => "androidx.compose.ui.draw.rotate"
  | scale => "androidx.compose.ui.draw.scale"
  | color => "androidx.compose.ui.graphics.Color"
  | contentScale => "androidx.compose.ui.layout.ContentScale"
  | colorResource => "androidx.compose.ui.res.colorResource"
  | dimensionResource => "androidx.compose.ui.res.dimensionResource"
  | painterResource => "androidx.compose.ui.res.painterResource"
  | stringResource => "androidx.compose.ui.res.stringResource"
  | fontStyle => "androidx.compose.ui.text.font.FontStyle"
  | fontWeight => "androidx.compose.ui.text.font.FontWeight"
  | keyboardType => "androidx.compose.ui.text.input.KeyboardType"
  | passwordVisualTransformation => "androidx.compose.ui.text.input.PasswordVisualTransformation"
  | textAlign => "androidx.compose.ui.text.style.TextAlign"
  | dp => "androidx.compose.ui.unit.dp"
  | sp => "androidx.compose.ui.unit.sp"
  | androidView => "androidx.compose.ui.viewinterop.AndroidView"

/-- Every import, in the order of the paths. -/
def all : List Import := [
  webView, image, background, clickable, focusable, horizontalScroll, arrangement, box, column, row,
  fillMaxHeight, fillMaxSize, fillMaxWidth, height, heightIn, padding, size, width, widthIn,
  gridCells, lazyVerticalGrid, rememberScrollState, keyboardOptions, verticalScroll, button,
  checkbox, circularProgressIndicator, experimentalMaterial3Api, exposedDropdownMenuBox,
  linearProgressIndicator, materialTheme, radioButton, slider, toggle, text, textField, composable,
  alignment, modifier, alpha, rotate, scale, color, contentScale, colorResource, dimensionResource,
  painterResource, stringResource, fontStyle, fontWeight, keyboardType,
  passwordVisualTransformation, textAlign, dp, sp, androidView]

def always : List Import := [composable, modifier, dp, sp]

/-! ## What one element asks for -/

def given (condition : Bool) (imports : List Import) : List Import :=
  if condition then imports else []

def ofGravity (ps : Properties) : List Import :=
  given (ps.raw? "gravity").isSome [arrangement, alignment]

def keyboardTypes : List String := [
  "numberPassword",
  "textPassword",
  "textWebPassword",
  "textEmailAddress",
  "textWebEmailAddress",
  "number",
  "numberDecimal",
  "numberSigned",
  "phone",
  "textUri"]

def passwordTypes : List String := ["textPassword", "numberPassword", "textWebPassword"]

def ofInputType (types : List String) : List Import :=
  given (types.any keyboardTypes.contains) [keyboardOptions, keyboardType] ++
    given (types.any passwordTypes.contains) [passwordVisualTransformation]

def styleMentions (ps : Properties) (word : String) : Bool :=
  ((ps.raw? "textStyle").map (Text.contains word)).getD false

def ofColor : Meaning → List Import
  | .code (.argb _) | .code (.namedColor _) => [color]
  | .code (.themeColor _) => [materialTheme]
  | .code _ => []
  | .literal | .unresolved .. | .preview => [color]

def ofTextColor (ps : Properties) : List Import :=
  match ps.get? "textColor" with
  | some p => ofColor p.meaning
  | none => []

def ofWidget (widget : Widget) (ps : Properties) : List Import :=
  match widget with
  | .linearLayout =>
    (if ps.raw? "orientation" == some "horizontal" then row else column) :: ofGravity ps
  | .scrollView => column :: ofGravity ps
  | .horizontalScrollView => row :: ofGravity ps
  | .gridLayout => [gridCells, lazyVerticalGrid]
  | .textView =>
    text :: given (styleMentions ps "bold") [fontWeight] ++
      given (styleMentions ps "italic") [fontStyle] ++
      given (ps.raw? "gravity").isSome [textAlign] ++ ofTextColor ps
  | .button => button :: given (ps.get? "text").isSome [text]
  | .imageView =>
    image :: painterResource :: given (ps.raw? "scaleType").isSome [contentScale]
  | .editText =>
    textField :: given (ps.get? "hint").isSome [text] ++
      ofInputType (Call.tokens (ps.raw? "inputType"))
  | .checkBox => [checkbox]
  | .radioButton => [radioButton]
  | .toggle => [toggle]
  | .progressBar =>
    [if Call.isHorizontalBar ps then linearProgressIndicator else circularProgressIndicator]
  | .seekBar => [slider]
  | .spinner => [exposedDropdownMenuBox, experimentalMaterial3Api]
  | .webView => [androidView, webView]
  | _ => box :: given (ps.raw? "gravity").isSome [alignment]

def isDimension (ps : Properties) (key : String) : Bool :=
  ((ps.raw? key).bind Dimension.read?).isSome

def isNumber (ps : Properties) (key : String) : Bool :=
  ((ps.raw? key).bind Number.Binary64.read?).isSome

def isFill (ps : Properties) (key : String) : Bool :=
  ps.raw? key == some "match_parent" || ps.raw? key == some "fill_parent"

def ofExtent (ps : Properties) (key : String) (filled fixed : Import) : List Import :=
  if isFill ps key then [filled] else given (isDimension ps key) [fixed]

def ofSize (ps : Properties) : List Import :=
  if isFill ps "layout_width" && isFill ps "layout_height" then [fillMaxSize]
  else
    ofExtent ps "layout_width" fillMaxWidth width ++
      ofExtent ps "layout_height" fillMaxHeight height

def paddingKeys : List String := [
  "padding",
  "paddingHorizontal",
  "paddingVertical",
  "paddingStart",
  "paddingLeft",
  "paddingTop",
  "paddingEnd",
  "paddingRight",
  "paddingBottom"]

def ofScroll : Widget → List Import
  | .scrollView => [rememberScrollState, verticalScroll]
  | .horizontalScrollView => [rememberScrollState, horizontalScroll]
  | _ => []

def ofBackground (ps : Properties) : List Import :=
  match ps.get? "background" with
  | some p =>
    match p.meaning with
    | .code expr => given expr.isColor (background :: ofColor p.meaning)
    | _ => []
  | none => []

/-- Widgets whose call takes the click itself. -/
def handlesClick : Widget → Bool
  | .button | .radioButton => true
  | _ => false

/-- The modifiers of a view; one that is gone has nothing but a size. -/
def ofModifiers (widget : Widget) (ps : Properties) : List Import :=
  if ps.raw? "visibility" == some "gone" then [size]
  else
    ofSize ps ++
      given (paddingKeys.any (isDimension ps)) [padding] ++
      ofScroll widget ++ ofBackground ps ++
      given (ps.raw? "visibility" == some "invisible") [alpha] ++
      given ((ps.isTrue "clickable" || (ps.raw? "onClick").isSome) && !handlesClick widget)
        [clickable] ++
      given (ps.isFalse "enabled" || isNumber ps "alpha") [alpha] ++
      given (ps.isTrue "focusable") [focusable] ++
      given (isNumber ps "rotation") [rotate] ++
      given (isNumber ps "scaleX" || isNumber ps "scaleY") [scale] ++
      given (isDimension ps "minWidth" || isDimension ps "maxWidth") [widthIn] ++
      given (isDimension ps "minHeight" || isDimension ps "maxHeight") [heightIn]

def ofResource : Resource → Import
  | .string => stringResource
  | .color => colorResource
  | .dimen => dimensionResource
  | .drawable | .mipmap => painterResource

def ofResources (ps : Properties) : List Import :=
  ps.filterMap fun p =>
    match p.meaning with
    | .code (.resource family _) => some (ofResource family)
    | _ => none

def ofElement (e : Element) : List Import :=
  let widget := Widget.ofTag e.tag
  let ps := e.properties
  ofWidget widget ps ++ ofModifiers widget ps ++ ofResources ps

/-! ## What a tree asks for -/

/-- Adds what the pending elements and everything below them ask for. An included
layout and a fragment are not looked into, and a merge asks for nothing itself. The first
child is taken first, where a stack of elements gives the last one first: only the set of
what is found counts, and that is the same. -/
def gather : List Element → List Import → List Import
  | [], found => found
  | e :: pending, found =>
    match Widget.ofTag e.tag with
    | .included | .fragment => gather pending found
    | .merged => gather (e.children ++ pending) found
    | _ => gather (e.children ++ pending) (ofElement e ++ found)
termination_by pending => Element.sizeAll pending
decreasing_by
  all_goals
    simp only [Element.sizeAll_append, Element.sizeAll]
    have := e.size_eq
    omega

def ofLayout (root : Element) : List Import :=
  let found := gather [root] always
  all.filter found.contains

def paths (root : Element) : List String :=
  (ofLayout root).map path

def block (root : Element) : String :=
  String.intercalate "\n" ((paths root).map ("import " ++ ·))

/-- Whether the layout needs an experimental composable, which is read off the imports: a
flag that is raised together with this one import says the same. -/
def needsOptIn (root : Element) : Bool :=
  (ofLayout root).contains experimentalMaterial3Api

end Import

end LayoutCompose
