import LayoutCompose.Diagnostic.Basic
import LayoutCompose.Layout.Widget
import LayoutCompose.Value.Property

/-!
# Checking elements

Each element is checked by its tag, its properties and the tag of its parent.
Warnings are about attributes that do not survive the conversion, suggestions about
better ways to write the result.
-/

namespace LayoutCompose.Check

/-- What to do about an attribute without an equivalent; a key may also match by its
beginning. -/
structure Unsupported where
  key : String
  byBeginning : Bool
  remedy : String

def unsupported : List Unsupported := [
  ⟨"layout_align", true, "position children in a Box with Modifier.align(...)"⟩,
  ⟨"drawableLeft", false, "put an Icon before the Text in a Row"⟩,
  ⟨"drawableStart", false, "put an Icon before the Text in a Row"⟩,
  ⟨"drawableRight", false, "put an Icon after the Text in a Row"⟩,
  ⟨"drawableEnd", false, "put an Icon after the Text in a Row"⟩,
  ⟨"drawableTop", false, "put an Icon above the Text in a Column"⟩,
  ⟨"drawableBottom", false, "put an Icon below the Text in a Column"⟩,
  ⟨"layout_behavior", false, "use Scaffold with Modifier.nestedScroll(...)"⟩,
  ⟨"fitsSystemWindows", false, "apply WindowInsets, e.g. Modifier.systemBarsPadding()"⟩,
  ⟨"layout_collapseMode", false,
    "use a LargeTopAppBar with TopAppBarDefaults.exitUntilCollapsedScrollBehavior()"⟩,
  ⟨"layout_scrollFlags", false, "use a TopAppBarScrollBehavior on the Scaffold top bar"⟩]

def Unsupported.covers (u : Unsupported) (key : String) : Bool :=
  if u.byBeginning then Text.startsWith u.key key else u.key == key

def remedy? (key : String) : Option String :=
  (unsupported.find? (·.covers key)).map (·.remedy)

def bracketed (tag : String) : String := "<" ++ tag ++ ">"

/-! ## Warnings -/

def unsupportedWarning? (tag : String) (p : Property) : Option Diagnostic :=
  (remedy? p.key).map fun remedy =>
    { kind := .unsupported
      message := bracketed tag ++ " " ++ p.key ++ "=\"" ++ p.raw ++ "\" has no Compose equivalent"
      remedy := some remedy }

def fillParentWarning? (tag : String) (p : Property) : Option Diagnostic :=
  if p.raw == "fill_parent" then
    some {
      kind := .deprecated
      message := bracketed tag ++ " " ++ p.key ++ "=\"fill_parent\" is deprecated"
      remedy := some "use match_parent; it is converted to fillMax*()" }
  else none

def propertyWarnings (tag : String) (p : Property) : List Diagnostic :=
  if p.isPreview then []
  else (unsupportedWarning? tag p).toList ++ (fillParentWarning? tag p).toList

def singleLineWarnings (tag : String) (ps : Properties) : List Diagnostic :=
  if (ps.get? "singleLine").isSome then
    [{ kind := .deprecated
       message := bracketed tag ++ " singleLine is deprecated"
       remedy := some "use maxLines=\"1\" (maxLines = 1 in Compose)" }]
  else []

def warnings (tag : String) (ps : Properties) : List Diagnostic :=
  ps.flatMap (propertyWarnings tag) ++ singleLineWarnings tag ps

/-! ## Suggestions -/

def migration (message remedy : String) : Diagnostic :=
  { kind := .migration, message, remedy := some remedy }

def bestPractice (message remedy : String) : Diagnostic :=
  { kind := .bestPractice, message, remedy := some remedy }

def usesGridManager (ps : Properties) : Bool :=
  ((ps.raw? "layoutManager").map (Text.contains "GridLayoutManager")).getD false

def rowsRemedy : String :=
  "render the adapter's rows with items(list) \x7b item -> ... \x7d"

def widgetSuggestions (tag : String) (ps : Properties) : Widget → List Diagnostic
  | .scrollView =>
    [bestPractice (bracketed tag ++ " scrolls a Column of fixed content")
      "use LazyColumn when the content is a long or dynamic list"]
  | .recyclerView =>
    migration (bracketed tag ++ " should become a LazyColumn or LazyRow") rowsRemedy ::
      if usesGridManager ps then
        [migration (bracketed tag ++ " uses a GridLayoutManager")
          "use LazyVerticalGrid(columns = GridCells.Adaptive(minSize = 128.dp))"]
      else []
  | .listView => [migration (bracketed tag ++ " should become a LazyColumn") rowsRemedy]
  | .gridView =>
    [migration (bracketed tag ++ " should become a LazyVerticalGrid")
      "use LazyVerticalGrid(columns = GridCells.Fixed(n)) with items(list)"]
  | .coordinatorLayout =>
    [migration (bracketed tag ++ " maps to Scaffold")
      "move app bars, FABs and snackbars into Scaffold slots"]
  | .drawerLayout =>
    [migration (bracketed tag ++ " maps to ModalNavigationDrawer")
      "pass the drawer content to ModalNavigationDrawer(drawerContent = \x7b ... \x7d)"]
  | .constraintLayout =>
    [migration
      (bracketed tag ++ " was converted to a Box and its constraints were dropped")
      ("add androidx.constraintlayout:constraintlayout-compose and use " ++
        "ConstraintLayout \x7b createRefs() \x7d")]
  | _ => []

def pagerSuggestions (tag : String) : List Diagnostic :=
  if Text.contains "ViewPager" (Tag.frameworkName tag) then
    [migration (bracketed tag ++ " maps to HorizontalPager")
      "HorizontalPager with rememberPagerState requires Compose Foundation 1.4 or newer"]
  else []

/-- A weight counts in a linear layout only, on itself or on a child. -/
def weightSuggestions (tag : String) (ps : Properties) (parent : Option String) :
    List Diagnostic :=
  let isLinear := fun t => Widget.ofTag t == .linearLayout
  if (ps.get? "layout_weight").isSome && (isLinear tag || (parent.map isLinear).getD false) then
    [bestPractice (bracketed tag ++ " layout_weight was not converted")
      "use Modifier.weight(1f) inside the Row or Column"]
  else []

def bindingSuggestions (tag : String) (ps : Properties) : List Diagnostic :=
  if ps.any fun p => Text.contains "@\x7b" p.raw then
    [migration (bracketed tag ++ " uses data binding expressions")
      "hold the values in remember \x7b mutableStateOf(...) \x7d or a ViewModel StateFlow"]
  else []

def isMaterial (tag : String) : Bool :=
  Text.startsWith "com.google.android.material." tag ||
    Text.startsWith "Material" (Tag.shortName tag)

def materialSuggestions (tag : String) : List Diagnostic :=
  if isMaterial tag then
    [migration (bracketed tag ++ " is a Material component")
      "use the Material 3 composables with Compose BOM 2023.01.00 or newer"]
  else []

def suggestions (tag : String) (ps : Properties) (parent : Option String) : List Diagnostic :=
  widgetSuggestions tag ps (Widget.ofTag tag) ++ pagerSuggestions tag ++
    weightSuggestions tag ps parent ++ bindingSuggestions tag ps ++ materialSuggestions tag

def element (tag : String) (ps : Properties) (parent : Option String) : Report :=
  ⟨warnings tag ps, suggestions tag ps parent⟩

end LayoutCompose.Check
