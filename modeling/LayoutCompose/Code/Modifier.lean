import LayoutCompose.Code.Call
import LayoutCompose.Value.Dimension

/-!
# Modifier chains

The modifiers of a call follow a fixed order, each kind at most once: size, padding,
margin, scrolling, background, visibility, clicks, focus, transformations, size
bounds, gravity and border. A view that is gone keeps a zero size and nothing else.
-/

namespace LayoutCompose

/-- A label and a dimension, as in `start = 8.dp`. -/
abbrev Edge := String × Dimension

inductive Modifier where
  | fillMaxSize
  | fillMaxWidth
  | fillMaxHeight
  | width (d : Dimension)
  | height (d : Dimension)
  | zeroSize
  | padding (d : Dimension)
  | edgePadding (edges : List Edge)
  | scroll (axis : Axis)
  | background (color : Expr)
  /-- Opacity, as a float literal. -/
  | alpha (literal : String)
  /-- A click whose handler is still to do. -/
  | clickable (comment : String)
  | focusable
  | rotate (degrees : Number.Binary64)
  | scale (factor : Number.Binary64)
  | scaleAxes (x y : Number.Binary64)
  | widthIn (bounds : List Edge)
  | heightIn (bounds : List Edge)
  /-- Something left to do, which stands in the chain as a comment. -/
  | task (text : String)
  deriving DecidableEq, Repr

namespace Modifier

def edgesCode (edges : List Edge) : String :=
  String.intercalate ", " (edges.map fun (label, d) => label ++ " = " ++ d.code)

def code : Modifier → String
  | fillMaxSize => ".fillMaxSize()"
  | fillMaxWidth => ".fillMaxWidth()"
  | fillMaxHeight => ".fillMaxHeight()"
  | width d => ".width(" ++ d.code ++ ")"
  | height d => ".height(" ++ d.code ++ ")"
  | zeroSize => ".size(0.dp)"
  | padding d => ".padding(" ++ d.code ++ ")"
  | edgePadding edges => ".padding(" ++ edgesCode edges ++ ")"
  | scroll .vertical => ".verticalScroll(rememberScrollState())"
  | scroll .horizontal => ".horizontalScroll(rememberScrollState())"
  | background color => ".background(" ++ color.code ++ ")"
  | alpha literal => ".alpha(" ++ literal ++ ")"
  | clickable comment => ".clickable " ++ Call.lambda comment
  | focusable => ".focusable()"
  | rotate degrees => ".rotate(" ++ degrees.literal ++ ")"
  | scale factor => ".scale(" ++ factor.literal ++ ")"
  | scaleAxes x y => ".scale(scaleX = " ++ x.literal ++ ", scaleY = " ++ y.literal ++ ")"
  | widthIn bounds => ".widthIn(" ++ edgesCode bounds ++ ")"
  | heightIn bounds => ".heightIn(" ++ edgesCode bounds ++ ")"
  | task text => Comment.todo text

def isCall : Modifier → Bool
  | task _ => false
  | _ => true

/-! ## Size -/

inductive Extent where
  | fill
  | fixed (d : Dimension)
  deriving DecidableEq, Repr

def Extent.read? : Option String → Option Extent
  | none => none
  | some value =>
    if value == "match_parent" || value == "fill_parent" then some .fill
    else if value == "wrap_content" then none
    else (Dimension.read? value).map .fixed

def widthLink : Extent → Modifier
  | .fill => fillMaxWidth
  | .fixed d => width d

def heightLink : Extent → Modifier
  | .fill => fillMaxHeight
  | .fixed d => height d

def sizeLinks (ps : Properties) : List Modifier :=
  match Extent.read? (ps.raw? "layout_width"), Extent.read? (ps.raw? "layout_height") with
  | some .fill, some .fill => [fillMaxSize]
  | w, h => (w.map widthLink).toList ++ (h.map heightLink).toList

/-! ## Padding and margins -/

def dimension? (ps : Properties) (key : String) : Option Dimension :=
  (ps.raw? key).bind Dimension.read?

/-- One edge for each label that has a dimension under one of its keys; the first
key with a dimension counts. -/
def edges (ps : Properties) (labels : List (String × List String)) : List Edge :=
  labels.filterMap fun (label, keys) =>
    (keys.findSome? (dimension? ps)).map fun d => (label, d)

def edgeLink (link : List Edge → Modifier) (edges : List Edge) : List Modifier :=
  if edges.isEmpty then [] else [link edges]

def axisLabels : List (String × List String) := [
  ("horizontal", ["paddingHorizontal"]),
  ("vertical", ["paddingVertical"])]

def edgeLabels : List (String × List String) := [
  ("start", ["paddingStart", "paddingLeft"]),
  ("top", ["paddingTop"]),
  ("end", ["paddingEnd", "paddingRight"]),
  ("bottom", ["paddingBottom"])]

/-- A uniform padding excludes every other one. -/
def paddingLinks (ps : Properties) : List Modifier :=
  match dimension? ps "padding" with
  | some d => [padding d]
  | none =>
    edgeLink edgePadding (edges ps axisLabels) ++ edgeLink edgePadding (edges ps edgeLabels)

def marginKeys : List String := [
  "layout_margin",
  "layout_marginHorizontal",
  "layout_marginVertical",
  "layout_marginStart",
  "layout_marginLeft",
  "layout_marginTop",
  "layout_marginEnd",
  "layout_marginRight",
  "layout_marginBottom"]

def margins (ps : Properties) : List String :=
  marginKeys.filterMap fun key => (ps.raw? key).map fun value => key ++ "=" ++ value

def marginLinks (ps : Properties) : List Modifier :=
  if (margins ps).isEmpty then []
  else [task ("margin (" ++ String.intercalate ", " (margins ps) ++
    ") - add spacing in the parent (Spacer or Arrangement.spacedBy)")]

/-! ## Appearance and behaviour -/

def backgroundLink (p : Property) : Modifier :=
  match p.meaning with
  | .code expr =>
    if expr.isColor then background expr
    else if Text.contains "gradient" p.raw then
      task ("gradient background " ++ p.raw ++ " - use .background(Brush.linearGradient(...))")
    else
      task ("background drawable " ++ p.raw ++
        " - use .background(color, shape) or .paint(...)")
  | _ => task ("background " ++ p.raw)

def visibilityLinks (ps : Properties) : List Modifier :=
  if ps.raw? "visibility" == some "invisible" then [alpha "0f"] else []

def isClickable (ps : Properties) : Bool :=
  ps.isTrue "clickable" || (ps.raw? "onClick").isSome

def clickLinks (ps : Properties) (call : Call) : List Modifier :=
  if isClickable ps && !call.hasArgument "onClick" then
    [clickable (match ps.raw? "onClick" with
      | some handler => Call.handlerComment handler
      | none => Comment.todo "handle click")]
  else []

def number? (ps : Properties) (key : String) : Option Number.Binary64 :=
  (ps.raw? key).bind Number.Binary64.read?

def scaleLinks (ps : Properties) : List Modifier :=
  match number? ps "scaleX", number? ps "scaleY" with
  | none, none => []
  | some x, some y => if x.sameValue y then [scale x] else [scaleAxes x y]
  | x, y => [scaleAxes (x.getD .one) (y.getD .one)]

def boundLabels (least greatest : String) : List (String × List String) :=
  [("min", [least]), ("max", [greatest])]

def gravityLink (gravity : String) : Modifier :=
  task ("layout_gravity=\"" ++ gravity ++ "\" - use Modifier.align(...) inside the parent scope")

/-- A drawable whose name speaks of an outline. -/
def isOutline (value : String) : Bool :=
  Text.startsWith "@drawable/" value &&
    ["border", "stroke", "outline"].any (Text.contains · value)

def borderLinks (ps : Properties) : List Modifier :=
  match ps.raw? "background" with
  | some value =>
    if isOutline value then
      [task ("border from " ++ value ++ " - use .border(1.dp, color, shape)")]
    else []
  | none => []

def chain (ps : Properties) (call : Call) : List Modifier :=
  if ps.raw? "visibility" == some "gone" then [zeroSize]
  else
    sizeLinks ps ++ paddingLinks ps ++ marginLinks ps ++
      (call.scroll.map scroll).toList ++
      ((ps.get? "background").map backgroundLink).toList ++
      visibilityLinks ps ++ clickLinks ps call ++
      (if ps.isFalse "enabled" then [alpha "0.6f"] else []) ++
      (if ps.isTrue "focusable" then [focusable] else []) ++
      ((number? ps "rotation").map rotate).toList ++
      scaleLinks ps ++
      ((number? ps "alpha").map fun x => alpha x.literal).toList ++
      edgeLink widthIn (edges ps (boundLabels "minWidth" "maxWidth")) ++
      edgeLink heightIn (edges ps (boundLabels "minHeight" "maxHeight")) ++
      ((ps.raw? "layout_gravity").map gravityLink).toList ++
      borderLinks ps

/-- Whether a chain is short enough for the line of its argument. -/
def isInline (chain : List Modifier) : Bool :=
  chain.length ≤ 2 && chain.all isCall

/-- The chain on one line, with a space on either side of each comment. -/
def inlineCode : List Modifier → String
  | [] => ""
  | [m] => m.code
  | m :: next :: rest =>
    m.code ++ (if m.isCall && next.isCall then "" else " ") ++ inlineCode (next :: rest)

end Modifier

end LayoutCompose
