import LayoutCompose.Text.Search

/-!
# Widgets

A tag is a class name, often qualified by a package. Support-library variants
count as the framework widget they extend, so every later step decides by the
`Widget` of a tag and treats the variants alike.
-/

namespace LayoutCompose

namespace Tag

def shortName (tag : String) : String :=
  (Text.pieces '.' tag).getLastD tag

/-- The short name of the framework widget that a tag extends. -/
def frameworkName (tag : String) : String :=
  match shortName tag with
  | "AppCompatTextView" | "MaterialTextView" => "TextView"
  | "AppCompatButton" | "MaterialButton" => "Button"
  | "AppCompatEditText" | "TextInputEditText" => "EditText"
  | "AppCompatImageView" | "ShapeableImageView" => "ImageView"
  | "AppCompatCheckBox" | "MaterialCheckBox" => "CheckBox"
  | "AppCompatRadioButton" | "MaterialRadioButton" => "RadioButton"
  | "SwitchCompat" | "SwitchMaterial" | "MaterialSwitch" => "Switch"
  | "AppCompatSeekBar" => "SeekBar"
  | "AppCompatSpinner" => "Spinner"
  | "NestedScrollView" => "ScrollView"
  | "FragmentContainerView" => "fragment"
  | other => other

end Tag

inductive Widget where
  /-- An `include`, which stands for another layout. -/
  | included
  /-- A `merge`, whose children belong to the layout around it. -/
  | merged
  | fragment
  | linearLayout
  /-- Either `FrameLayout` or `RelativeLayout`. -/
  | frameLayout
  | constraintLayout
  | scrollView
  | horizontalScrollView
  | gridLayout
  | textView
  | button
  | imageView
  | editText
  | checkBox
  | radioButton
  /-- Either `Switch` or `ToggleButton`. -/
  | toggle
  | progressBar
  | seekBar
  | spinner
  | webView
  | recyclerView
  | listView
  | gridView
  | coordinatorLayout
  | drawerLayout
  | other
  deriving DecidableEq, Repr

def Widget.ofTag (tag : String) : Widget :=
  match Tag.frameworkName tag with
  | "include" => .included
  | "merge" => .merged
  | "fragment" => .fragment
  | "LinearLayout" => .linearLayout
  | "FrameLayout" | "RelativeLayout" => .frameLayout
  | "ConstraintLayout" => .constraintLayout
  | "ScrollView" => .scrollView
  | "HorizontalScrollView" => .horizontalScrollView
  | "GridLayout" => .gridLayout
  | "TextView" => .textView
  | "Button" => .button
  | "ImageView" => .imageView
  | "EditText" => .editText
  | "CheckBox" => .checkBox
  | "RadioButton" => .radioButton
  | "Switch" | "ToggleButton" => .toggle
  | "ProgressBar" => .progressBar
  | "SeekBar" => .seekBar
  | "Spinner" => .spinner
  | "WebView" => .webView
  | "RecyclerView" => .recyclerView
  | "ListView" => .listView
  | "GridView" => .gridView
  | "CoordinatorLayout" => .coordinatorLayout
  | "DrawerLayout" => .drawerLayout
  | _ => .other

end LayoutCompose
