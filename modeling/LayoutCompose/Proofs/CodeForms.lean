import LayoutCompose.Proofs.Brackets
import LayoutCompose.Proofs.Imports

/-!
# What calls are made of

The code of an argument, a block or a modifier is fixed, or it is written around one value of a
property: a number, a text, a colour, a picture or a dimension. Every widget and every modifier is
looked into once, for its parameters, its forms and the names that it takes from a library. What
holds of all generated code is then shown for a few forms.
-/

namespace LayoutCompose

-- ---------------------------------------------------------------------------
-- Texts on one line
-- ---------------------------------------------------------------------------

namespace Text

theorem isLine_of_plain (h : Scan.Plain text) : IsLine text := by
  intro hfeed
  have hplain := h _ hfeed
  simp [Scan.isPlain] at hplain

theorem IsLine.between (hlead : IsLine lead) (h : IsLine text) (htail : IsLine tail) :
    IsLine (lead ++ text ++ tail) :=
  (hlead.append h).append htail

theorem isLine_intercalate (hseparator : IsLine separator) {texts : List String}
    (h : ∀ text ∈ texts, IsLine text) : IsLine (separator.intercalate texts) := by
  induction texts with
  | nil => exact isLine_ofList (by decide)
  | cons text texts ih =>
    obtain ⟨htext, htexts⟩ := List.forall_mem_cons.mp h
    cases texts with
    | nil => simpa using htext
    | cons next texts =>
      rw [String.intercalate_cons_cons]
      exact (htext.append hseparator).append (ih htexts)

def IsWord (text : String) : Prop := text.toList ≠ [] ∧ ∀ c ∈ text.toList, c.isAlpha = true

theorem isWord_ofList (h : l ≠ [] ∧ ∀ c ∈ l, c.isAlpha = true) : IsWord (String.ofList l) := by
  rwa [IsWord, String.toList_ofList]

theorem IsWord.isLine (h : IsWord text) : IsLine text := by
  intro hfeed
  simpa using h.2 _ hfeed

theorem infix_of_mem_splitOn {l : List Char} (h : piece ∈ l.splitOn c) : piece <:+: l := by
  -- the first piece is a prefix, which the recursion extends
  suffices hpieces : ∀ first rest, l.splitOn c = first :: rest →
      first <+: l ∧ ∀ piece ∈ rest, piece <:+: l by
    cases hsplit : l.splitOn c with
    | nil => simp [hsplit] at h
    | cons first rest =>
      obtain ⟨hfirst, hrest⟩ := hpieces first rest hsplit
      rw [hsplit] at h
      rcases List.mem_cons.mp h with rfl | hmem
      · exact hfirst.isInfix
      · exact hrest piece hmem
  clear h
  induction l with
  | nil =>
    intro first rest hsplit
    simp_all
  | cons a l ih =>
    intro first rest hsplit
    rw [List.splitOn_cons_eq_if_modifyHead] at hsplit
    cases htail : l.splitOn c with
    | nil => exact (List.splitOn_ne_nil c l htail).elim
    | cons next others =>
      obtain ⟨hnext, hothers⟩ := ih next others htail
      rw [htail] at hsplit
      split at hsplit
      · cases hsplit
        refine ⟨by simp, ?_⟩
        intro piece hpiece
        rcases List.mem_cons.mp hpiece with rfl | hmem
        · exact List.infix_cons hnext.isInfix
        · exact List.infix_cons (hothers piece hmem)
      · cases hsplit
        exact ⟨List.cons_prefix_cons.mpr ⟨rfl, hnext⟩,
          fun piece hpiece => List.infix_cons (hothers piece hpiece)⟩

theorem occursIn_iff {part l : List Char} : occursIn part l = true ↔ part <:+: l := by
  induction l with
  | nil => simp [occursIn, List.infix_nil]
  | cons c l ih => simp [occursIn, ih, List.infix_cons_iff]

end Text

open Text (IsLine IsWord isLine_ofList isWord_ofList)

theorem Comment.unbroken_oneLine (text : String) : Text.Unbroken (oneLine text) :=
  Text.unbroken_ofList (not_mem_foldBreaks text.toList)

theorem Comment.isLine_todo (h : IsLine text) : IsLine (todo text) :=
  (isLine_ofList (by decide)).between (isLine_ofList (not_mem_breakEnds (by decide) h))
    (isLine_ofList (by decide))

def Properties.Lines (ps : Properties) : Prop := ∀ p ∈ ps, IsLine p.raw

theorem Properties.Lines.raw {ps : Properties} (h : ps.Lines) (hraw : ps.raw? key = some value) :
    IsLine value := by
  obtain ⟨p, hp, rfl⟩ := Option.map_eq_some_iff.mp hraw
  exact h p (mem_of_get? hp)

-- ---------------------------------------------------------------------------
-- Forms of arguments
-- ---------------------------------------------------------------------------

namespace Composable

/-- The parameters that a call may give, in the order in which it gives them. -/
def parameters : Composable → List String
  | column => ["verticalArrangement", "horizontalAlignment"]
  | row => ["horizontalArrangement", "verticalAlignment"]
  | box => ["contentAlignment"]
  | lazyVerticalGrid => ["columns"]
  | text => ["text", "fontSize", "color", "fontWeight", "fontStyle", "textAlign", "maxLines"]
  | button => ["onClick"]
  | image => ["painter", "contentDescription", "contentScale"]
  | textField =>
    ["value", "onValueChange", "placeholder", "singleLine", "keyboardOptions",
      "visualTransformation"]
  | checkbox | toggle => ["checked", "onCheckedChange"]
  | radioButton => ["selected", "onClick"]
  | linearProgress | circularProgress => ["progress"]
  | slider => ["value", "onValueChange", "valueRange"]
  | dropdownMenuBox => ["expanded", "onExpandedChange"]
  | androidView => ["factory", "update"]

theorem isWord_parameters (c : Composable) : ∀ key ∈ c.parameters, IsWord key := by
  cases c <;>
    repeat first
      | exact List.forall_mem_nil _
      | refine List.forall_mem_cons.mpr ⟨isWord_ofList (by decide), ?_⟩

end Composable

namespace Call

inductive Fixed where
  | plain
  | arrangement
  | alignment
  | boxAlignment
  | bold
  | italic
  | textAlign
  | contentScale
  | keyboard
  | password
  | webView

namespace Fixed

def codes : Fixed → List String
  | plain => [
      "\"\"", "null", "true", "false", "1", "0f..1f",
      "\x7b webView -> /* TODO: webView.loadUrl(url) */ \x7d"]
  | arrangement => ["Arrangement.Center", "Arrangement.Bottom", "Arrangement.End"]
  | alignment => [
      "Alignment.CenterHorizontally", "Alignment.End", "Alignment.CenterVertically",
      "Alignment.Bottom"]
  | boxAlignment => [
      "Alignment.TopStart", "Alignment.TopCenter", "Alignment.TopEnd",
      "Alignment.CenterStart", "Alignment.Center", "Alignment.CenterEnd",
      "Alignment.BottomStart", "Alignment.BottomCenter", "Alignment.BottomEnd"]
  | bold => ["FontWeight.Bold"]
  | italic => ["FontStyle.Italic"]
  | textAlign => ["TextAlign.Center", "TextAlign.End", "TextAlign.Start"]
  | contentScale => [
      "ContentScale.Crop", "ContentScale.Fit", "ContentScale.FillBounds", "ContentScale.Inside"]
  | keyboard => [
      "KeyboardOptions(keyboardType = KeyboardType.NumberPassword)",
      "KeyboardOptions(keyboardType = KeyboardType.Password)",
      "KeyboardOptions(keyboardType = KeyboardType.Email)",
      "KeyboardOptions(keyboardType = KeyboardType.Number)",
      "KeyboardOptions(keyboardType = KeyboardType.Phone)",
      "KeyboardOptions(keyboardType = KeyboardType.Uri)"]
  | password => ["PasswordVisualTransformation()"]
  | webView => ["\x7b context -> WebView(context) \x7d"]

def names : Fixed → List Import
  | plain => []
  | arrangement => [.arrangement]
  | alignment | boxAlignment => [.alignment]
  | bold => [.fontWeight]
  | italic => [.fontStyle]
  | textAlign => [.textAlign]
  | contentScale => [.contentScale]
  | keyboard => [.keyboardOptions, .keyboardType]
  | password => [.passwordVisualTransformation]
  | webView => [.webView]

theorem isLine (kind : Fixed) : ∀ code ∈ kind.codes, IsLine code := by
  cases kind <;>
    repeat first
      | exact List.forall_mem_nil _
      | refine List.forall_mem_cons.mpr ⟨isLine_ofList (by decide), ?_⟩

end Fixed

def textArguments : List (String × String) :=
  [("text", "text"), ("value", "text"), ("contentDescription", "contentDescription")]

/-- What an argument is made of, by the properties that it reads. Where it takes names from a
library, its widget asks for them. -/
inductive Form (ps : Properties) (widget : Widget) : Argument → Prop
  | fixed (kind : Fixed) (hcode : code ∈ kind.codes)
      (hnames : kind.names ⊆ Import.ofWidget widget ps) : Form ps widget (key, code)
  | count (n : Int) : Form ps widget (key, toString n)
  | size (n : Int) : Form ps widget (key, toString n ++ ".sp")
  | cells (n : Int) (hname : .gridCells ∈ Import.ofWidget widget ps) :
      Form ps widget (key, "GridCells.Fixed(" ++ toString n ++ ")")
  | literal (x : Number.Binary64) : Form ps widget (key, x.literal)
  | progress (x : Number.Binary64) : Form ps widget (key, lambda x.literal)
  | task (hline : ps.Lines → IsLine task) : Form ps widget (key, lambda (Comment.todo task))
  | text (hkey : (key, name) ∈ textArguments) (hp : ps.get? name = some p) :
      Form ps widget (key, p.textCode)
  | label (hp : ps.get? "hint" = some p) :
      Form ps widget ("placeholder", lambda ("Text(" ++ p.textCode ++ ")"))
  | color (hp : ps.get? "textColor" = some p)
      (hnames : Import.ofColor p.meaning ⊆ Import.ofWidget widget ps) :
      Form ps widget ("color", p.colorCode)
  | painter (hname : .painterResource ∈ Import.ofWidget widget ps) :
      Form ps widget ("painter", Call.painter ps)

variable {ps : Properties} {widget : Widget}

/-- The arguments are for some of the parameters, in their order, and have one of the forms. -/
structure Formed (ps : Properties) (widget : Widget) (parameters : List String)
    (arguments : List Argument) : Prop where
  inOrder : (arguments.map (·.1)).Sublist parameters
  form : ∀ a ∈ arguments, Form ps widget a

theorem formed_nil : Formed ps widget parameters [] :=
  ⟨List.nil_sublist _, List.forall_mem_nil _⟩

theorem formed_optional (h : ∀ c, code = some c → Form ps widget (key, c)) :
    Formed ps widget [key] (optional key code) := by
  refine ⟨?_, forall_mem_optional.mpr h⟩
  cases code with
  | none => exact List.nil_sublist _
  | some c => exact List.Sublist.refl _

theorem Formed.cons (h : Formed ps widget parameters rest) (hform : Form ps widget (key, code)) :
    Formed ps widget (key :: parameters) ((key, code) :: rest) :=
  ⟨List.Sublist.cons_cons key h.inOrder, List.forall_mem_cons.mpr ⟨hform, h.form⟩⟩

theorem Formed.append (ha : Formed ps widget parameters a) (hb : Formed ps widget others b) :
    Formed ps widget (parameters ++ others) (a ++ b) := by
  refine ⟨?_, List.forall_mem_append.mpr ⟨ha.form, hb.form⟩⟩
  rw [List.map_append]
  exact List.Sublist.append ha.inOrder hb.inOrder

-- ---------------------------------------------------------------------------
-- Containers
-- ---------------------------------------------------------------------------

theorem isSome_gravity {choose : List String → Option String} (hnil : choose [] = none)
    (h : choose (gravity ps) = some code) : (ps.raw? "gravity").isSome = true := by
  cases hraw : ps.raw? "gravity" with
  | none =>
    rw [gravity, hraw] at h
    simp [tokens, hnil] at h
  | some value => rfl

theorem ofGravity_eq {choose : List String → Option String} (hnil : choose [] = none)
    (h : choose (gravity ps) = some code) : Import.ofGravity ps = [.arrangement, .alignment] := by
  simp [Import.ofGravity, Import.given, isSome_gravity hnil h]

theorem form_arrangement {choose : List String → Option String} (hnil : choose [] = none)
    (hnames : Import.ofGravity ps ⊆ Import.ofWidget widget ps)
    (hcode : code ∈ Fixed.arrangement.codes) (h : choose (gravity ps) = some code) :
    Form ps widget (key, code) := by
  rw [ofGravity_eq hnil h] at hnames
  exact .fixed .arrangement hcode (List.Subset.trans (by simp [Fixed.names]) hnames)

theorem form_alignment {choose : List String → Option String} (hnil : choose [] = none)
    (hnames : Import.ofGravity ps ⊆ Import.ofWidget widget ps)
    (hcode : code ∈ Fixed.alignment.codes) (h : choose (gravity ps) = some code) :
    Form ps widget (key, code) := by
  rw [ofGravity_eq hnil h] at hnames
  exact .fixed .alignment hcode (List.Subset.trans (by simp [Fixed.names]) hnames)

theorem formed_column (hnames : Import.ofGravity ps ⊆ Import.ofWidget widget ps) :
    Formed ps widget Composable.column.parameters (column ps).arguments :=
  .append
    (formed_optional fun _ h => form_arrangement rfl hnames (mem_arrangements (.inl h)) h)
    (formed_optional fun _ h => form_alignment rfl hnames (mem_alignments (.inl h)) h)

theorem formed_row (hnames : Import.ofGravity ps ⊆ Import.ofWidget widget ps) :
    Formed ps widget Composable.row.parameters (row ps).arguments :=
  .append
    (formed_optional fun _ h => form_arrangement rfl hnames (mem_arrangements (.inr h)) h)
    (formed_optional fun _ h => form_alignment rfl hnames (mem_alignments (.inr h)) h)

theorem formed_frame
    (hnames : Import.given (ps.raw? "gravity").isSome [.alignment] ⊆ Import.ofWidget widget ps) :
    Formed ps widget Composable.box.parameters (frame ps).arguments := by
  refine formed_optional fun code h => ?_
  rw [Import.given, if_pos (isSome_gravity rfl h)] at hnames
  exact .fixed .boxAlignment (mem_boxAlignments h) hnames

-- ---------------------------------------------------------------------------
-- Texts and pictures
-- ---------------------------------------------------------------------------

theorem form_textOr (hkey : (key, name) ∈ textArguments) (hother : other ∈ Fixed.plain.codes) :
    Form ps widget (key, ((ps.get? name).map (·.textCode)).getD other) := by
  cases hget : ps.get? name with
  | none => exact .fixed .plain hother (List.nil_subset _)
  | some p => exact .text hkey hget

theorem contains_of_mem_tokens (h : token ∈ tokens (some value)) :
    Text.contains token value = true := by
  obtain ⟨piece, hpiece, rfl⟩ := List.mem_map.mp h
  obtain ⟨chars, hchars, rfl⟩ := List.mem_map.mp hpiece
  rw [Text.contains, Text.occursIn_iff, Text.trim, String.toList_ofList, String.toList_ofList]
  exact (Text.isInfix_trimChars chars).trans (Text.infix_of_mem_splitOn hchars)

theorem styleMentions_of_whenHas
    (h : whenHas (tokens (ps.raw? "textStyle")) word code = some result) :
    result = code ∧ Import.styleMentions ps word = true := by
  unfold whenHas at h
  split at h <;> cases h
  case isTrue hmem =>
    refine ⟨rfl, ?_⟩
    cases hraw : ps.raw? "textStyle" with
    | none => simp [hraw, tokens] at hmem
    | some value =>
      rw [hraw] at hmem
      simpa [Import.styleMentions, hraw] using
        contains_of_mem_tokens (List.contains_iff_mem.mp hmem)

theorem form_maxLines (h : maxLines? ps = some code) : Form ps widget (key, code) := by
  unfold maxLines? at h
  split at h
  · cases h
    exact .count _
  · split at h <;> cases h
    exact .fixed .plain (by simp [Fixed.codes]) (List.nil_subset _)

theorem formed_text (ps : Properties) :
    Formed ps .textView Composable.text.parameters (text ps).arguments := by
  have htext : Form ps .textView ("text", ((ps.get? "text").map (·.textCode)).getD emptyText) :=
    form_textOr (by simp [textArguments]) (by simp [Fixed.codes, emptyText])
  have hsize : ∀ code, ((ps.raw? "textSize").bind Number.leadingInteger?).map
      (fun n => toString n ++ ".sp") = some code → Form ps .textView ("fontSize", code) := by
    intro code h
    obtain ⟨n, -, rfl⟩ := Option.map_eq_some_iff.mp h
    exact .size n
  have hcolor : ∀ code, (ps.get? "textColor").map (·.colorCode) = some code →
      Form ps .textView ("color", code) := by
    intro code h
    obtain ⟨p, hp, rfl⟩ := Option.map_eq_some_iff.mp h
    refine .color hp (List.Subset.trans ?_ (List.subset_append_right _ _))
    simp [Import.ofTextColor, hp]
  have hbold : ∀ code, whenHas (tokens (ps.raw? "textStyle")) "bold" "FontWeight.Bold" = some code →
      Form ps .textView ("fontWeight", code) := by
    intro code h
    obtain ⟨rfl, hstyle⟩ := styleMentions_of_whenHas h
    exact .fixed .bold (by simp [Fixed.codes])
      (by simp [Fixed.names, Import.ofWidget, Import.given, hstyle])
  have hitalic : ∀ code, whenHas (tokens (ps.raw? "textStyle")) "italic" "FontStyle.Italic" =
      some code → Form ps .textView ("fontStyle", code) := by
    intro code h
    obtain ⟨rfl, hstyle⟩ := styleMentions_of_whenHas h
    exact .fixed .italic (by simp [Fixed.codes])
      (by simp [Fixed.names, Import.ofWidget, Import.given, hstyle])
  have halign : ∀ code, textAlign? (gravity ps) = some code →
      Form ps .textView ("textAlign", code) := by
    intro code h
    have hsome := isSome_gravity rfl h
    exact .fixed .textAlign (mem_textAligns h)
      (by simp [Fixed.names, Import.ofWidget, Import.given, hsome])
  exact ((((((formed_optional hsize).cons htext).append (formed_optional hcolor)).append
    (formed_optional hbold)).append (formed_optional hitalic)).append
    (formed_optional halign)).append (formed_optional fun _ h => form_maxLines h)

theorem formed_image (ps : Properties) :
    Formed ps .imageView Composable.image.parameters (image ps).arguments := by
  have hscale : ∀ code, contentScale? (ps.raw? "scaleType") = some code →
      Form ps .imageView ("contentScale", code) := by
    intro code h
    have hsome : (ps.raw? "scaleType").isSome = true := by
      cases hraw : ps.raw? "scaleType" with
      | none => simp [hraw, contentScale?] at h
      | some value => rfl
    exact .fixed .contentScale (mem_contentScales h)
      (by simp [Fixed.names, Import.ofWidget, Import.given, hsome])
  have hdescription : Form ps .imageView
      ("contentDescription", ((ps.get? "contentDescription").map (·.textCode)).getD "null") :=
    form_textOr (by simp [textArguments]) (by simp [Fixed.codes])
  have hpainter : Form ps .imageView ("painter", painter ps) := .painter (by simp [Import.ofWidget])
  exact ((formed_optional hscale).cons hdescription).cons hpainter

-- ---------------------------------------------------------------------------
-- Input
-- ---------------------------------------------------------------------------

theorem any_keyboardTypes (h : keyboard? types = some kind) :
    types.any Import.keyboardTypes.contains = true := by
  by_contra hnone
  have hmissing : ∀ wanted, List.all wanted Import.keyboardTypes.contains = true →
      hasAny types wanted = false := by
    intro wanted hwanted
    rw [Bool.eq_false_iff]
    intro hany
    obtain ⟨token, htoken, hmem⟩ := List.any_eq_true.mp hany
    have hknown := List.all_eq_true.mp hwanted token (List.contains_iff_mem.mp hmem)
    exact hnone (List.any_eq_true.mpr ⟨token, htoken, hknown⟩)
  simp [keyboard?, hmissing, Import.keyboardTypes] at h

theorem formed_textField (ps : Properties) :
    Formed ps .editText Composable.textField.parameters (textField ps).arguments := by
  have hvalue : Form ps .editText ("value", ((ps.get? "text").map (·.textCode)).getD emptyText) :=
    form_textOr (by simp [textArguments]) (by simp [Fixed.codes, emptyText])
  have hlabel : ∀ code, ((ps.get? "hint").map fun p => lambda ("Text(" ++ p.textCode ++ ")")) =
      some code → Form ps .editText ("placeholder", code) := by
    intro code h
    obtain ⟨p, hp, rfl⟩ := Option.map_eq_some_iff.mp h
    exact .label hp
  have hsingle : ∀ code, (if ps.isTrue "singleLine" || ps.raw? "maxLines" == some "1"
      then some "true" else none) = some code → Form ps .editText ("singleLine", code) := by
    intro code h
    split at h <;> cases h
    exact .fixed .plain (by simp [Fixed.codes]) (List.nil_subset _)
  have hkeyboard : ∀ code, ((keyboard? (tokens (ps.raw? "inputType"))).map fun kind =>
      "KeyboardOptions(keyboardType = KeyboardType." ++ kind ++ ")") = some code →
      Form ps .editText ("keyboardOptions", code) := by
    intro code h
    obtain ⟨kind, hkind, rfl⟩ := Option.map_eq_some_iff.mp h
    have htypes := any_keyboardTypes hkind
    exact .fixed .keyboard (mem_keyboardCodes hkind)
      (by simp [Fixed.names, Import.ofWidget, Import.ofInputType, Import.given, htypes])
  have hpassword : ∀ code, (if isPassword (tokens (ps.raw? "inputType"))
      then some "PasswordVisualTransformation()" else none) = some code →
      Form ps .editText ("visualTransformation", code) := by
    intro code h
    split at h <;> cases h
    case isTrue htypes =>
      have htypes : (tokens (ps.raw? "inputType")).any Import.passwordTypes.contains = true :=
        htypes
      exact .fixed .password (by simp [Fixed.codes])
        (by simp [Fixed.names, Import.ofWidget, Import.ofInputType, Import.given, htypes])
  have hchange : Form ps .editText
      ("onValueChange", lambda (Comment.todo "update text state")) :=
    .task fun _ => isLine_ofList (by decide)
  exact (((((formed_optional hlabel).cons hchange).cons hvalue).append
    (formed_optional hsingle)).append (formed_optional hkeyboard)).append
    (formed_optional hpassword)

theorem isLine_handler (h : ps.Lines) (hraw : ps.raw? "onClick" = some handler) :
    IsLine ("call " ++ handler ++ "()") :=
  (isLine_ofList (by decide)).between (h.raw hraw) (isLine_ofList (by decide))

theorem form_clickHandler (ps : Properties) : Form ps widget (key, clickHandler ps) := by
  unfold clickHandler
  split
  case h_1 handler hraw => exact .task fun h => isLine_handler h hraw
  case h_2 => exact .task fun _ => isLine_ofList (by decide)

theorem form_bool (b : Bool) : Form ps widget (key, boolCode b) :=
  .fixed .plain (by cases b <;> simp [Fixed.codes, boolCode]) (List.nil_subset _)

theorem formed_progressBar (ps : Properties) :
    Formed ps widget (progressBar ps).composable.parameters (progressBar ps).arguments := by
  have hparameters : (progressBar ps).composable.parameters = ["progress"] := by
    simp only [progressBar]
    split <;> rfl
  rw [hparameters]
  simp only [progressBar]
  split
  · exact formed_nil
  · refine formed_optional fun code h => ?_
    obtain ⟨x, -, rfl⟩ := Option.map_eq_some_iff.mp h
    exact .progress x

/-- A call gives parameters of its composable, in their order, and each argument has one of the
forms. -/
theorem formed_arguments (widget : Widget) (ps : Properties) :
    Formed ps widget (ofWidget widget ps).composable.parameters
      (ofWidget widget ps).arguments := by
  have htask : ∀ {key task}, IsLine task → Form ps widget (key, lambda (Comment.todo task)) :=
    fun h => .task fun _ => h
  have hplain : ∀ {key code}, code ∈ Fixed.plain.codes → Form ps widget (key, code) :=
    fun h => .fixed .plain h (List.nil_subset _)
  cases widget with
  | linearLayout =>
    have hnames : Import.ofGravity ps ⊆ Import.ofWidget .linearLayout ps :=
      List.subset_cons_self _ _
    rw [ofWidget]
    split
    · exact formed_row hnames
    · exact formed_column hnames
  | scrollView => exact formed_column (List.subset_cons_self _ _)
  | horizontalScrollView => exact formed_row (List.subset_cons_self _ _)
  | frameLayout | constraintLayout => exact formed_frame (List.subset_cons_self _ _)
  | gridLayout => exact formed_nil.cons (.cells _ (by simp [Import.ofWidget]))
  | textView => exact formed_text ps
  | imageView => exact formed_image ps
  | editText => exact formed_textField ps
  | button => exact formed_nil.cons (form_clickHandler ps)
  | checkBox | toggle | radioButton =>
    exact (formed_nil.cons (htask (isLine_ofList (by decide)))).cons (form_bool _)
  | progressBar => exact formed_progressBar ps
  | seekBar =>
    exact ((formed_nil.cons (hplain (by simp [Fixed.codes]))).cons
      (htask (isLine_ofList (by decide)))).cons (.literal _)
  | spinner =>
    exact (formed_nil.cons (htask (isLine_ofList (by decide)))).cons (form_bool false)
  | webView =>
    exact (formed_nil.cons (hplain (by decide))).cons
      (.fixed .webView (by decide) (by simp [Fixed.names, Import.ofWidget]))
  | _ => exact formed_nil

theorem isWord_key (h : a ∈ (ofWidget widget ps).arguments) : IsWord a.1 :=
  Composable.isWord_parameters _ _
    ((formed_arguments widget ps).inOrder.subset (List.mem_map_of_mem h))

theorem content_dropdown (ps : Properties) :
    ∃ text, Text.Unbroken text ∧ (dropdown ps).content = some ("// " ++ text) := by
  have hentries : Text.Unbroken
      (((ps.raw? "entries").map fun e => " from " ++ Comment.oneLine e).getD "") := by
    cases ps.raw? "entries" with
    | none => exact Text.unbroken_ofList (by decide)
    | some value =>
      exact .append (Text.unbroken_ofList (by decide)) (Comment.unbroken_oneLine value)
  refine ⟨"TODO: add TextField + ExposedDropdownMenu with the spinner items" ++ _,
    .append (Text.unbroken_ofList (by decide)) hentries, ?_⟩
  rw [← String.append_assoc]
  rfl

/-- A block starts with a label or with a line comment, if with anything. -/
theorem content_cases (h : (ofWidget widget ps).content = some code) :
    (∃ p, ps.get? "text" = some p ∧ code = "Text(" ++ p.textCode ++ ")") ∨
      ∃ text, Text.Unbroken text ∧ code = "// " ++ text := by
  cases widget with
  | button =>
    obtain ⟨p, hp, rfl⟩ := Option.map_eq_some_iff.mp h
    exact .inl ⟨p, hp, rfl⟩
  | spinner =>
    obtain ⟨text, htext, hcontent⟩ := content_dropdown ps
    exact .inr ⟨text, htext, Option.some.inj (h.symm.trans hcontent)⟩
  | linearLayout =>
    rw [ofWidget] at h
    split at h <;> cases h
  | _ => cases h

end Call

-- ---------------------------------------------------------------------------
-- Modifiers
-- ---------------------------------------------------------------------------

namespace Modifier

variable {ps : Properties}

def Gives (ps : Properties) (d : Dimension) : Prop := ∃ key, dimension? ps key = some d

def edgeNames : List String :=
  ["horizontal", "vertical", "start", "top", "end", "bottom", "min", "max"]

def Sourced (ps : Properties) : Modifier → Prop
  | width d | height d | padding d => Gives ps d
  | edgePadding edges | widthIn edges | heightIn edges =>
    ∀ edge ∈ edges, edge.1 ∈ edgeNames ∧ Gives ps edge.2
  | background color =>
    ∃ p, ps.get? "background" = some p ∧ p.meaning = .code color ∧ color.isColor = true
  | alpha code => ∀ c ∈ code.toList, Number.isNumeralChar c = true
  | clickable code => ∃ task, code = Comment.todo task ∧ (ps.Lines → IsLine task)
  | task text => ps.Lines → IsLine text
  | _ => True

theorem isWord_edgeNames : ∀ name ∈ edgeNames, IsWord name := by
  repeat first
    | exact List.forall_mem_nil _
    | refine List.forall_mem_cons.mpr ⟨isWord_ofList (by decide), ?_⟩

theorem sourced_toList {o : Option α} {link : α → Modifier}
    (h : ∀ a, o = some a → (link a).Sourced ps) : ∀ m ∈ (o.map link).toList, m.Sourced ps := by
  cases o with
  | none => simp
  | some a => simpa using h a rfl

theorem dimension?_of_extent (h : Extent.read? (ps.raw? key) = some (.fixed d)) :
    dimension? ps key = some d := by
  cases hraw : ps.raw? key with
  | none => simp [hraw, Extent.read?] at h
  | some value =>
    rw [hraw, Extent.read?] at h
    split at h
    · cases h
    split at h
    · cases h
    obtain ⟨d, hd, hfixed⟩ := Option.map_eq_some_iff.mp h
    cases hfixed
    simp [dimension?, hraw, hd]

theorem sourced_extent (link : Extent → Modifier) (hfill : (link .fill).Sourced ps)
    (hfixed : ∀ d, (link (.fixed d)).Sourced ps = Gives ps d) (key : String) :
    ∀ m ∈ ((Extent.read? (ps.raw? key)).map link).toList, m.Sourced ps := by
  refine sourced_toList fun extent hextent => ?_
  cases extent with
  | fill => exact hfill
  | fixed d =>
    rw [hfixed]
    exact ⟨key, dimension?_of_extent hextent⟩

theorem sourced_sizeLinks (ps : Properties) : ∀ m ∈ sizeLinks ps, m.Sourced ps := by
  unfold sizeLinks
  split
  case h_1 => simp [Sourced]
  case h_2 =>
    rw [List.forall_mem_append]
    exact ⟨sourced_extent widthLink trivial (fun _ => rfl) _,
      sourced_extent heightLink trivial (fun _ => rfl) _⟩

theorem sourced_edgeLink {link : List Edge → Modifier}
    (hlink : ∀ edges,
      (link edges).Sourced ps = ∀ edge ∈ edges, edge.1 ∈ edgeNames ∧ Gives ps edge.2)
    {labels : List (String × List String)} (hlabels : ∀ label ∈ labels, label.1 ∈ edgeNames) :
    ∀ m ∈ edgeLink link (edges ps labels), m.Sourced ps := by
  unfold edgeLink
  split
  · simp
  rw [List.forall_mem_singleton, hlink]
  intro edge hedge
  obtain ⟨label, hlabel, hd⟩ := List.mem_filterMap.mp hedge
  obtain ⟨d, hfound, rfl⟩ := Option.map_eq_some_iff.mp hd
  obtain ⟨key, -, hkey⟩ := List.exists_of_findSome?_eq_some hfound
  exact ⟨hlabels label hlabel, key, hkey⟩

theorem sourced_paddingLinks (ps : Properties) : ∀ m ∈ paddingLinks ps, m.Sourced ps := by
  unfold paddingLinks
  split
  case h_1 d hd =>
    rw [List.forall_mem_singleton]
    exact ⟨"padding", hd⟩
  case h_2 =>
    rw [List.forall_mem_append]
    exact ⟨sourced_edgeLink (fun _ => rfl) (by decide),
      sourced_edgeLink (fun _ => rfl) (by decide)⟩

theorem isLine_margins (h : ps.Lines) : ∀ text ∈ margins ps, IsLine text := by
  have hkeys : ∀ key ∈ marginKeys, IsLine key := by
    repeat first
      | exact List.forall_mem_nil _
      | refine List.forall_mem_cons.mpr ⟨isLine_ofList (by decide), ?_⟩
  intro text htext
  obtain ⟨key, hkey, hvalue⟩ := List.mem_filterMap.mp htext
  obtain ⟨value, hraw, rfl⟩ := Option.map_eq_some_iff.mp hvalue
  exact ((hkeys key hkey).append (isLine_ofList (by decide))).append (h.raw hraw)

theorem sourced_marginLinks (ps : Properties) : ∀ m ∈ marginLinks ps, m.Sourced ps := by
  unfold marginLinks
  split
  · simp
  rw [List.forall_mem_singleton]
  intro h
  exact (isLine_ofList (by decide)).between
    (Text.isLine_intercalate (isLine_ofList (by decide)) (isLine_margins h))
    (isLine_ofList (by decide))

theorem sourced_backgroundLink (hp : ps.get? "background" = some p) :
    (backgroundLink p).Sourced ps := by
  have hraw : ps.Lines → IsLine p.raw := fun h => h p (Properties.mem_of_get? hp)
  unfold backgroundLink
  split
  case h_1 expr hcode =>
    split
    case isTrue hcolor => exact ⟨p, hp, hcode, hcolor⟩
    case isFalse =>
      split <;> exact fun h => (isLine_ofList (by decide)).between (hraw h)
        (isLine_ofList (by decide))
  case h_2 => exact fun h => .append (isLine_ofList (by decide)) (hraw h)

theorem sourced_clickLinks (ps : Properties) (call : Call) :
    ∀ m ∈ clickLinks ps call, m.Sourced ps := by
  unfold clickLinks
  split
  · rw [List.forall_mem_singleton]
    split
    case h_1 handler hraw => exact ⟨_, rfl, fun h => Call.isLine_handler h hraw⟩
    case h_2 => exact ⟨_, rfl, fun _ => isLine_ofList (by decide)⟩
  · simp

theorem sourced_scaleLinks (ps : Properties) : ∀ m ∈ scaleLinks ps, m.Sourced ps := by
  unfold scaleLinks
  split
  case h_1 => simp
  case h_2 => split <;> simp [Sourced]
  case h_3 => simp [Sourced]

theorem sourced_gravityLink (hraw : ps.raw? "layout_gravity" = some gravity) :
    (gravityLink gravity).Sourced ps :=
  fun h => (isLine_ofList (by decide)).between (h.raw hraw) (isLine_ofList (by decide))

theorem sourced_borderLinks (ps : Properties) : ∀ m ∈ borderLinks ps, m.Sourced ps := by
  unfold borderLinks
  split
  case h_1 value hraw =>
    split
    · rw [List.forall_mem_singleton]
      exact fun h => (isLine_ofList (by decide)).between (h.raw hraw) (isLine_ofList (by decide))
    · simp
  case h_2 => simp

/-- The parts of every modifier in a chain come from the properties. -/
theorem sourced_chain (ps : Properties) (call : Call) : ∀ m ∈ chain ps call, m.Sourced ps := by
  rw [chain]
  split
  · simp [Sourced]
  have hopacity : ∀ (condition : Bool) (code : String),
      (∀ c ∈ code.toList, Number.isNumeralChar c = true) →
      ∀ m ∈ if condition then [alpha code] else [], m.Sourced ps := by
    intro condition code hcode
    split
    · exact List.forall_mem_singleton.mpr hcode
    · simp
  have hfocus : ∀ m ∈ if ps.isTrue "focusable" then [focusable] else [], m.Sourced ps := by
    split <;> simp [Sourced]
  simp only [List.forall_mem_append, and_assoc]
  exact ⟨sourced_sizeLinks ps, sourced_paddingLinks ps, sourced_marginLinks ps,
    sourced_toList fun _ _ => trivial, sourced_toList fun p hp => sourced_backgroundLink hp,
    hopacity _ _ (by decide), sourced_clickLinks ps call, hopacity _ _ (by decide), hfocus,
    sourced_toList fun _ _ => trivial, sourced_scaleLinks ps,
    sourced_toList fun x _ _ hc => x.isNumeralChar_of_mem_literal hc,
    sourced_edgeLink (fun _ => rfl) (by decide),
    sourced_edgeLink (fun _ => rfl) (by decide),
    sourced_toList fun _ hraw => sourced_gravityLink hraw, sourced_borderLinks ps⟩

end Modifier

end LayoutCompose
