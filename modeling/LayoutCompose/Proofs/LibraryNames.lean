import LayoutCompose.Proofs.CodeForms
import Mathlib.Data.List.Basic

/-!
# Names from a library

The code of a call takes names from a library: helpers such as `Arrangement`, the functions that
read resources and the names of colours. Wherever one of them stands outside literals and comments,
it is imported, or it is part of the name of a resource that a value of the element refers to. The
one exception is a colour where a text is wanted: it is written like any other, but nothing
imports its name.
-/

namespace LayoutCompose

inductive Call.Position where
  | argument (key : String)
  | block
  | modifier
  deriving DecidableEq, Repr

/-- The positions where a text is wanted, each with the property that is shown there and with what
stands around it. -/
def Call.Position.texts : List (Position × String × String × String) := [
  (argument "text", "text", "", ""),
  (argument "value", "text", "", ""),
  (argument "contentDescription", "contentDescription", "", ""),
  (argument "placeholder", "hint", "\x7b Text(", ") \x7d"),
  (block, "text", "Text(", ")")]

/-- The pieces of code in the call of an element, the comments between its modifiers apart. -/
def Element.pieces (e : Element) : List (Call.Position × String) :=
  e.call.arguments.map (fun a => (.argument a.1, a.2)) ++
    e.call.content.toList.map (fun code => (.block, code)) ++
    ((Modifier.chain e.properties e.call).filter (·.isCall)).map fun m => (.modifier, m.code)

/-- What a value means, previews apart. -/
theorem Element.meaning_of_get? {e : Element} (h : e.properties.get? key = some p) :
    p.meaning = .ofValue p.raw := by
  obtain ⟨a, -, hraw, hmeaning⟩ := e.meaning_of_mem (Properties.mem_of_get? h)
  rcases hmeaning with hpreview | hvalue
  · have hfound := List.find?_some h
    simp [Property.isPreview, hpreview] at hfound
  · rw [hvalue, hraw]

theorem Meaning.ofValue_dimen (h : Text.after? "@dimen/" value = some name) :
    ofValue value = .code (.resource .dimen name) := by
  obtain rfl := Text.after?_eq_some_iff.mp h
  exact (Denotes.resource .dimen name).ofValue_eq

/-- Nothing is visible in a line comment. -/
theorem Scan.visible_line (h : '\n' ∉ l) : visible .line l = [] := by
  induction l with
  | nil => rfl
  | cons c l ih =>
    rw [List.mem_cons, not_or] at h
    have hnext : Mode.next .line c = .line := by simp [Mode.next, Ne.symm h.1]
    rw [visible, if_neg (by decide), hnext, ih h.2]

namespace Import

-- ---------------------------------------------------------------------------
-- Names and where they stand
-- ---------------------------------------------------------------------------

/-- The names that arguments take from a library, those in values apart. -/
def helpers : List Import := [
  arrangement, alignment, gridCells, fontWeight, fontStyle, textAlign, contentScale,
  keyboardOptions, keyboardType, passwordVisualTransformation, webView]

def values : List Import :=
  [stringResource, colorResource, dimensionResource, painterResource, color, materialTheme]

def libraryWords : List (Import × List Char) := [
  (arrangement, ['A', 'r', 'r', 'a', 'n', 'g', 'e', 'm', 'e', 'n', 't']),
  (alignment, ['A', 'l', 'i', 'g', 'n', 'm', 'e', 'n', 't']),
  (gridCells, ['G', 'r', 'i', 'd', 'C', 'e', 'l', 'l', 's']),
  (fontWeight, ['F', 'o', 'n', 't', 'W', 'e', 'i', 'g', 'h', 't']),
  (fontStyle, ['F', 'o', 'n', 't', 'S', 't', 'y', 'l', 'e']),
  (textAlign, ['T', 'e', 'x', 't', 'A', 'l', 'i', 'g', 'n']),
  (contentScale, ['C', 'o', 'n', 't', 'e', 'n', 't', 'S', 'c', 'a', 'l', 'e']),
  (keyboardOptions, ['K', 'e', 'y', 'b', 'o', 'a', 'r', 'd', 'O', 'p', 't', 'i', 'o', 'n', 's']),
  (keyboardType, ['K', 'e', 'y', 'b', 'o', 'a', 'r', 'd', 'T', 'y', 'p', 'e']),
  (passwordVisualTransformation, [
    'P', 'a', 's', 's', 'w', 'o', 'r', 'd', 'V', 'i', 's', 'u', 'a', 'l', 'T', 'r', 'a', 'n', 's',
    'f', 'o', 'r', 'm', 'a', 't', 'i', 'o', 'n']),
  (webView, ['W', 'e', 'b', 'V', 'i', 'e', 'w']),
  (stringResource, ['s', 't', 'r', 'i', 'n', 'g', 'R', 'e', 's', 'o', 'u', 'r', 'c', 'e']),
  (colorResource, ['c', 'o', 'l', 'o', 'r', 'R', 'e', 's', 'o', 'u', 'r', 'c', 'e']),
  (dimensionResource, [
    'd', 'i', 'm', 'e', 'n', 's', 'i', 'o', 'n', 'R', 'e', 's', 'o', 'u', 'r', 'c', 'e']),
  (painterResource, ['p', 'a', 'i', 'n', 't', 'e', 'r', 'R', 'e', 's', 'o', 'u', 'r', 'c', 'e']),
  (color, ['C', 'o', 'l', 'o', 'r']),
  (materialTheme, ['M', 'a', 't', 'e', 'r', 'i', 'a', 'l', 'T', 'h', 'e', 'm', 'e'])]

theorem mem_libraryWords (h : i ∈ helpers ++ values) : (i, i.name.toList) ∈ libraryWords := by
  have hnames : (helpers ++ values).map name = [
      "Arrangement", "Alignment", "GridCells", "FontWeight", "FontStyle", "TextAlign",
      "ContentScale", "KeyboardOptions", "KeyboardType", "PasswordVisualTransformation",
      "WebView", "stringResource", "colorResource", "dimensionResource", "painterResource",
      "Color", "MaterialTheme"] := by
    simp only [helpers, values, List.cons_append, List.nil_append, List.map_cons, List.map_nil,
      name, path]
    repeat rw [shortName_ofList]
    rfl
  have hwords : (helpers ++ values).map (fun i => (i, i.name.toList)) = libraryWords := by
    simp only [helpers, values, List.cons_append, List.nil_append, List.map_cons, List.map_nil,
      List.cons.injEq] at hnames ⊢
    simp only [hnames]
    repeat rw [String.toList_ofList]
    decide
  rw [← hwords]
  exact List.mem_map_of_mem h

theorem isAlpha_of_word (ht : t ∈ libraryWords) : ∀ c ∈ t.2, c.isAlpha = true := by
  revert t
  decide

/-- A name stands between two parts of a piece of code, outside literals and comments. -/
def Uses (code name : String) (before after : List Char) : Prop :=
  code.toList = before ++ name.toList ++ after ∧ (Scan.scan .code before).isCode = true

/-- A name is used somewhere exactly if it occurs in the visible text. -/
theorem exists_uses_iff {code word : String} (h : Text.IsWord word) :
    (∃ before after, Uses code word before after) ↔
      word.toList <:+: Scan.visible .code code.toList := by
  refine ⟨?_, fun hvisible => Scan.exists_of_infix_visible h.1 h.2 hvisible⟩
  rintro ⟨before, after, hcode, hscan⟩
  rw [hcode]
  exact Scan.infix_visible h.2 hscan

/-- What stands between two parts of a piece of code is part of the name of a resource: a value of
the element refers to the resource, and so does the code at this place. -/
def InReference (e : Element) (before word after : List Char) : Prop :=
  ∃ a ∈ e.attributes, ∃ family : Resource, ∃ start rest,
    a.value.toList = ("@" ++ family.family ++ "/").toList ++ (start ++ word ++ rest) ∧
    (family.accessor ++ "(R." ++ family.family ++ ".").toList ++ start <:+ before ∧
    rest ++ [')'] <+: after

def ColorsText (e : Element) (position : Call.Position) (code : String) (i : Import) : Prop :=
  ∃ key before after p expr, (position, key, before, after) ∈ Call.Position.texts ∧
    e.properties.get? key = some p ∧ p.meaning = .code expr ∧ i ∈ ofColor p.meaning ∧
    code = before ++ expr.code ++ after

theorem InReference.extend (h : InReference e before word after) (lead tail : List Char) :
    InReference e (lead ++ before) word (after ++ tail) := by
  obtain ⟨a, ha, family, start, rest, hvalue, hbefore, hafter⟩ := h
  exact ⟨a, ha, family, start, rest, hvalue, hbefore.trans (List.suffix_append _ _),
    hafter.trans (List.prefix_append _ _)⟩

/-- Wherever a name stands in a text, it has the property or is part of the name of a resource. -/
def Covers (e : Element) (P : Import → Prop) (l : List Char) : Prop :=
  ∀ t ∈ libraryWords, ∀ before after, l = before ++ t.2 ++ after →
    P t.1 ∨ InReference e before t.2 after

def Accounts (e : Element) (P : Import → Prop) (code : String) : Prop :=
  ∀ t ∈ libraryWords, ∀ before after, code.toList = before ++ t.2 ++ after →
    (Scan.scan .code before).isCode = true → P t.1 ∨ InReference e before t.2 after

variable {e : Element} {P : Import → Prop} {code : String}

theorem Covers.append_cons (ha : Covers e P a) (hb : Covers e P b) (hc : c.isAlpha = false) :
    Covers e P (a ++ c :: b) := by
  intro t ht before after heq
  have hmem : c ∉ t.2 := fun h => by simp [isAlpha_of_word ht c h] at hc
  rcases Scan.append_cons_eq_append hmem heq with ⟨rest, hleft, rfl⟩ | ⟨start, rfl, hright⟩
  · exact (ha t ht before rest hleft).imp_right fun h => by simpa using h.extend [] (c :: b)
  · exact (hb t ht start after hright).imp_right fun h => by simpa using h.extend (a ++ [c]) []

theorem covers_of_names (names : List Import)
    (h : ∀ t ∈ libraryWords, Text.occursIn t.2 l = true → t.1 ∈ names)
    (hnames : ∀ i ∈ names, P i) : Covers e P l := by
  rintro t ht before after rfl
  exact .inl (hnames t.1 (h t ht (Text.occursIn_iff.mpr ⟨before, after, rfl⟩)))

theorem covers_of_occursIn (h : ∀ t ∈ libraryWords, Text.occursIn t.2 l = false) :
    Covers e P l :=
  covers_of_names [] (fun t ht hocc => by simp [h t ht] at hocc) (by simp)

/-- No name occurs where a letter of each is missing. -/
theorem covers_of_all {p : Char → Bool} (hp : ∀ t ∈ libraryWords, t.2.all p = false)
    (h : ∀ c ∈ l, p c = true) : Covers e P l := by
  rintro t ht before after rfl
  obtain ⟨c, hc, hpc⟩ := List.all_eq_false.mp (hp t ht)
  exact absurd (h c (by simp [hc])) hpc

theorem accounts_of_covers (h : Covers e P code.toList) : Accounts e P code :=
  fun t ht before after heq _ => h t ht before after heq

theorem accounts_of_visible (names : List Import)
    (h : ∀ t ∈ libraryWords,
      Text.occursIn t.2 (Scan.visible .code code.toList) = true → t.1 ∈ names)
    (hnames : ∀ i ∈ names, P i) : Accounts e P code := by
  intro t ht before after heq hcode
  have hvisible : t.2 <:+: Scan.visible .code (before ++ t.2 ++ after) :=
    Scan.infix_visible (isAlpha_of_word ht) hcode
  rw [← heq] at hvisible
  exact .inl (hnames t.1 (h t ht (Text.occursIn_iff.mpr hvisible)))

theorem accounts_of_shows (names : List Import) (hshows : Scan.Shows code shown)
    (h : ∀ t ∈ libraryWords, Text.occursIn t.2 shown = true → t.1 ∈ names)
    (hnames : ∀ i ∈ names, P i) : Accounts e P code :=
  accounts_of_visible names (by rwa [hshows.visible]) hnames

-- ---------------------------------------------------------------------------
-- Numbers
-- ---------------------------------------------------------------------------

/-- No capitals, which every name has. -/
def Low (code : String) : Prop := ∀ c ∈ code.toList, c.isUpper = false

instance (code : String) : Decidable (Low code) :=
  List.decidableBAll _ code.toList

theorem Low.append (ha : Low a) (hb : Low b) : Low (a ++ b) := by
  intro c hc
  rw [String.toList_append, List.mem_append] at hc
  exact hc.elim (ha c) (hb c)

theorem Low.covers (h : Low code) : Covers e P code.toList :=
  covers_of_all (p := fun c => !c.isUpper) (by decide) (by simpa [Low] using h)

theorem Low.accounts (h : Low code) : Accounts e P code :=
  accounts_of_covers h.covers

theorem low_numeral (h : ∀ c ∈ code.toList, Number.isNumeralChar c = true) : Low code :=
  fun c hc => Number.not_isUpper_of_isNumeralChar (h c hc)

theorem low_int (n : Int) : Low (toString n) :=
  low_numeral fun _ hc => Number.isNumeralChar_of_mem_int hc

theorem low_literal (x : Number.Binary64) : Low x.literal :=
  low_numeral fun _ hc => x.isNumeralChar_of_mem_literal hc

/-- Brackets keep the words of an argument and of what calls it apart. -/
theorem covers_call {argument : String} (names : List Import) (hopen : l.getLast? = some '(')
    (hl : ∀ t ∈ libraryWords, Text.occursIn t.2 l = true → t.1 ∈ names)
    (hnames : ∀ i ∈ names, P i) (h : Covers e P argument.toList) :
    Covers e P (String.ofList l ++ argument ++ ")").toList := by
  obtain ⟨lead, rfl⟩ := List.getLast?_eq_some_iff.mp hopen
  have hlead : Covers e P lead := by
    refine covers_of_names names (fun t ht hocc => hl t ht ?_) hnames
    rw [Text.occursIn_iff] at hocc ⊢
    exact hocc.trans (List.prefix_append lead ['(']).isInfix
  have hboth : Covers e P (lead ++ '(' :: (argument.toList ++ ')' :: [])) :=
    hlead.append_cons (.append_cons h (covers_of_occursIn (by decide)) (by decide)) (by decide)
  simpa using hboth

-- ---------------------------------------------------------------------------
-- Expressions
-- ---------------------------------------------------------------------------

theorem ofWidget_subset (e : Element) :
    ofWidget (Widget.ofTag e.tag) e.properties ⊆ ofElement e := by
  intro i hi
  simp [ofElement, hi]

theorem ofResource_mem_ofElement {resource : String} (hp : p ∈ e.properties)
    (hcode : p.meaning = .code (.resource family resource)) : ofResource family ∈ ofElement e := by
  have hresource : ofResource family ∈ ofResources e.properties :=
    List.mem_filterMap.mpr ⟨p, hp, by rw [hcode]⟩
  simp [ofElement, hresource]

/-- The code of a reference holds the name of its function and the name of the resource. -/
theorem covers_resource {resource : String} (hattribute : ∃ a ∈ e.attributes,
      Text.after? ("@" ++ family.family ++ "/") a.value = some resource)
    (hfunction : P (ofResource family)) :
    Covers e P (Expr.resource family resource).code.toList := by
  obtain ⟨a, ha, hvalue⟩ := hattribute
  have hcode : (Expr.resource family resource).code.toList =
      family.accessor.toList ++ '(' :: (['R'] ++ '.' :: family.family.toList) ++
        '.' :: (resource.toList ++ ')' :: []) := by
    change (family.accessor ++ "(R." ++ family.family ++ "." ++ resource ++ ")").toList = _
    simp
  have haccessor : Covers e P family.accessor.toList := by
    refine covers_of_names [ofResource family] ?_ (by simpa using hfunction)
    cases family <;> exact String.toList_ofList.symm ▸ by decide
  have hfamily : Low family.family := by cases family <;> decide
  have hlead :
      Covers e P (family.accessor.toList ++ '(' :: (['R'] ++ '.' :: family.family.toList)) :=
    haccessor.append_cons
      (.append_cons (covers_of_occursIn (by decide)) hfamily.covers (by decide)) (by decide)
  intro t ht before after heq
  have hmem : ∀ c, c.isAlpha = false → c ∉ t.2 :=
    fun c hc h => by simp [isAlpha_of_word ht c h] at hc
  rw [hcode] at heq
  rcases Scan.append_cons_eq_append (hmem '.' (by decide)) heq with
    ⟨rest, hleft, rfl⟩ | ⟨start, rfl, hright⟩
  · exact (hlead t ht before rest hleft).imp_right fun h => by simpa using h.extend [] _
  rcases Scan.append_cons_eq_append (hmem ')' (by decide)) hright with
    ⟨rest, hname, rfl⟩ | ⟨_, -, hnil⟩
  · refine .inr ⟨a, ha, family, start, rest, ?_, ?_, List.prefix_rfl⟩
    · rw [Text.after?_eq_some_iff.mp hvalue, String.toList_append, hname]
    · simp
  · have hnone : ∀ t ∈ libraryWords, t.2 ≠ [] := by decide
    simp [hnone t ht] at hnil

theorem covers_argb (hcolor : P color) (argb : Argb) : Covers e P (Expr.argb argb).code.toList := by
  let digits := argb.alpha.digits ++ argb.red.digits ++ argb.green.digits ++ argb.blue.digits
  have hcode : (Expr.argb argb).code.toList =
      ['C', 'o', 'l', 'o', 'r'] ++ '(' :: (['0', 'x'] ++ digits ++ [')']) := by
    change ("Color(0x" ++ String.ofList digits ++ ")").toList = _
    simp
  -- the digits are capitals, and every name has a small letter other than `x`
  have hhex : Covers e P (['0', 'x'] ++ digits ++ [')']) := by
    refine covers_of_all (p := fun c => !c.isLower || c == 'x') (by decide) fun c hc => ?_
    simp only [List.mem_append, List.mem_cons, List.not_mem_nil, or_false] at hc
    rcases hc with ((rfl | rfl) | hdigit) | rfl
    case inl.inr =>
      obtain ⟨d, rfl⟩ := Argb.exists_hexDigit_of_mem hdigit
      clear hdigit
      revert d
      decide
    all_goals decide
  rw [hcode]
  exact .append_cons (covers_of_names [color] (by decide) (by simpa using hcolor)) hhex (by decide)

/-- The code of a colour value or of an entry of the tables holds the name that it is imported
for. -/
theorem covers_closed {expr : Expr} (h : expr.IsClosed) (hcolor : ∀ i ∈ ofColor (.code expr), P i) :
    Covers e P expr.code.toList := by
  rcases h with ⟨argb, rfl⟩ | htabled
  · exact covers_argb (hcolor color (by simp [ofColor])) argb
  have hwords : ∀ expr ∈ Expr.tabled, ∀ t ∈ libraryWords,
      Text.occursIn t.2 expr.word.toList = false := by decide +kernel
  have hword : Covers e P expr.word.toList := covers_of_occursIn (hwords expr htabled)
  cases expr with
  | resource family name => exact (Expr.ne_resource htabled family name rfl).elim
  | argb argb => exact covers_argb (hcolor color (by simp [ofColor])) argb
  | namedColor name =>
    have hcode : (Expr.namedColor name).code.toList =
        ['C', 'o', 'l', 'o', 'r'] ++ '.' :: name.toList := by
      change ("Color." ++ name).toList = _
      simp
    rw [hcode]
    exact .append_cons (covers_of_names [color] (by decide) hcolor) hword (by decide)
  | themeColor role =>
    have hcode : (Expr.themeColor role).code.toList =
        "MaterialTheme.colorScheme".toList ++ '.' :: role.toList := by
      change ("MaterialTheme.colorScheme." ++ role).toList = _
      simp
    rw [hcode, String.toList_ofList]
    exact .append_cons (covers_of_names [materialTheme] (by decide) hcolor) hword (by decide)
  | dp n =>
    have hnumber : Low (toString n) := low_int n
    have hlow : Low (Expr.dp n).code := hnumber.append (by decide)
    exact hlow.covers

/-- The names in the code of an expression: that of its function or of its colour. -/
theorem covers_expr (hp : p ∈ e.properties) (hcode : p.meaning = .code expr)
    (hfunction : ∀ i ∈ ofElement e, P i) (hcolor : ∀ i ∈ ofColor p.meaning, P i) :
    Covers e P expr.code.toList := by
  rcases e.meaning_eq_code hp hcode with ⟨family, name, rfl, hattribute⟩ | hclosed
  · exact covers_resource hattribute (hfunction _ (ofResource_mem_ofElement hp hcode))
  · exact covers_closed hclosed (by rwa [hcode] at hcolor)

-- ---------------------------------------------------------------------------
-- Arguments and blocks
-- ---------------------------------------------------------------------------

def Known (e : Element) (position : Call.Position) (code : String) (i : Import) : Prop :=
  i ∈ ofElement e ∨ ColorsText e position code i

theorem covers_around {value : String}
    (hposition : (position, key, before, after) ∈ Call.Position.texts)
    (h : Covers e P value.toList) : Covers e P (before ++ value ++ after).toList := by
  simp only [Call.Position.texts, List.mem_cons, Prod.mk.injEq, List.not_mem_nil,
    or_false] at hposition
  have hlabel : Covers e P ("Text(" ++ value ++ ")").toList :=
    covers_call [] (by decide) (by decide) (by simp) h
  rcases hposition with ⟨-, -, rfl, rfl⟩ | ⟨-, -, rfl, rfl⟩ | ⟨-, -, rfl, rfl⟩ | ⟨-, -, rfl, rfl⟩ |
    ⟨-, -, rfl, rfl⟩
  iterate 3 simpa using h
  · have hlambda : Covers e P (['\x7b'] ++ ' ' :: (("Text(" ++ value ++ ")").toList ++
        ' ' :: ['\x7d'])) :=
      .append_cons (covers_of_occursIn (by decide))
        (.append_cons hlabel (covers_of_occursIn (by decide)) (by decide)) (by decide)
    simpa using hlambda
  · exact hlabel

theorem accounts_around {value : String}
    (hposition : (position, key, before, after) ∈ Call.Position.texts)
    (hshows : Scan.Shows value shown) (hshown : shown ∈ [['"'], ['"', ' ', '/', '*']]) :
    Accounts e P (before ++ value ++ after) := by
  have hplain : ∀ entry ∈ Call.Position.texts,
      Scan.Plain entry.2.2.1 ∧ Scan.Plain entry.2.2.2 ∧
        ∀ shown ∈ [['"'], ['"', ' ', '/', '*']], ∀ t ∈ libraryWords, Text.occursIn t.2
          (entry.2.2.1.toList ++ shown ++ entry.2.2.2.toList) = false := by decide +kernel
  obtain ⟨hbefore, hafter, hnone⟩ := hplain _ hposition
  refine accounts_of_shows [] ((hbefore.shows.append hshows).append hafter.shows) ?_ (by simp)
  intro t ht hocc
  cases (hnone shown hshown t ht).symm.trans hocc

theorem accounts_text (hposition : (position, key, before, after) ∈ Call.Position.texts)
    (hp : e.properties.get? key = some p) :
    Accounts e (Known e position (before ++ p.textCode ++ after))
      (before ++ p.textCode ++ after) := by
  have hmem := Properties.mem_of_get? hp
  cases hmeaning : p.meaning with
  | code expr =>
    have htext : p.textCode = expr.code := by rw [Property.textCode, hmeaning]
    rw [htext]
    have hcolor : ∀ i ∈ ofColor p.meaning, Known e position (before ++ expr.code ++ after) i :=
      fun i hi => .inr ⟨key, before, after, p, expr, hposition, hp, hmeaning, hi, rfl⟩
    exact accounts_of_covers (covers_around hposition
      (covers_expr hmem hmeaning (fun i hi => .inl hi) hcolor))
  | unresolved task reason =>
    have htext : p.textCode = "\"\" " ++ Comment.todo task := by rw [Property.textCode, hmeaning]
    have hlead : Scan.Shows "\"\" " ['"', ' '] := by decide
    have hshows := hlead.append (Scan.shows_todo task)
    rw [← htext] at hshows
    exact accounts_around hposition hshows (by simp)
  | literal | preview =>
    have htext : p.textCode = Literal.quote p.raw := by rw [Property.textCode, hmeaning]
    have hshows := Scan.shows_quote p.raw
    rw [← htext] at hshows
    exact accounts_around hposition hshows (by simp)

theorem accounts_color (hp : e.properties.get? "textColor" = some p)
    (hfunction : ∀ i ∈ ofElement e, P i) (hcolor : ∀ i ∈ ofColor p.meaning, P i) :
    Accounts e P p.colorCode := by
  have hunspecified : ∀ task, ofColor p.meaning = [color] →
      p.colorCode = "Color.Unspecified " ++ Comment.todo task → Accounts e P p.colorCode := by
    intro task hmeaning htext
    have hlead : Scan.Plain "Color.Unspecified " := by decide
    have hshows := hlead.shows.append (Scan.shows_todo task)
    rw [← htext, String.toList_ofList] at hshows
    exact accounts_of_shows [color] hshows (by decide) (by rwa [hmeaning] at hcolor)
  cases hmeaning : p.meaning with
  | code expr =>
    have htext : p.colorCode = expr.code := by rw [Property.colorCode, hmeaning]
    rw [htext]
    exact accounts_of_covers (covers_expr (Properties.mem_of_get? hp) hmeaning hfunction hcolor)
  | unresolved task reason =>
    exact hunspecified task (by rw [hmeaning]; rfl) (by rw [Property.colorCode, hmeaning])
  | literal | preview =>
    exact hunspecified _ (by rw [hmeaning]; rfl) (by rw [Property.colorCode, hmeaning])

theorem accounts_painter (hpainter : P painterResource) :
    Accounts e P (Call.painter e.properties) := by
  have hplaceholder : ∀ task, Accounts e P (Call.placeholderPainter task) := by
    intro task
    have hlead : Scan.Plain "painterResource(R.drawable.ic_placeholder) " := by decide
    have hshows : Scan.Shows (Call.placeholderPainter task) _ :=
      hlead.shows.append (Scan.shows_todo task)
    rw [String.toList_ofList] at hshows
    exact accounts_of_shows [painterResource] hshows (by decide) (by simpa using hpainter)
  have hresource : ∀ {p : Property} {family name}, p ∈ e.properties →
      p.meaning = .code (.resource family name) → ofResource family = painterResource →
      Accounts e P (Expr.resource family name).code := by
    intro p family name hp hcode hfamily
    rcases e.meaning_eq_code hp hcode with ⟨_, _, ⟨⟩, hattribute⟩ | ⟨_, ⟨⟩⟩ | htabled
    · exact accounts_of_covers (covers_resource hattribute (hfamily ▸ hpainter))
    · exact (Expr.ne_resource htabled family name rfl).elim
  unfold Call.painter
  split
  · exact hplaceholder _
  case h_2 source hsource =>
    have hmem : source ∈ e.properties := by
      rcases Option.or_eq_some_iff.mp hsource with hsrc | ⟨-, hcompat⟩
      · exact Properties.mem_of_get? hsrc
      · exact Properties.mem_of_get? hcompat
    split
    case h_1 hcode => exact hresource hmem hcode rfl
    case h_2 hcode => exact hresource hmem hcode rfl
    case h_3 => exact hplaceholder _

theorem names_of_fixed (kind : Call.Fixed) : ∀ code ∈ kind.codes, ∀ t ∈ libraryWords,
    Text.occursIn t.2 (Scan.visible .code code.toList) = true → t.1 ∈ kind.names := by
  have hofList : ∀ {l : List Char} {names : List Import},
      (∀ t ∈ libraryWords, Text.occursIn t.2 (Scan.visible .code l) = true → t.1 ∈ names) →
      ∀ t ∈ libraryWords, Text.occursIn t.2 (Scan.visible .code (String.ofList l).toList) = true →
        t.1 ∈ names := by
    intro l names h
    rwa [String.toList_ofList]
  cases kind <;>
    repeat first
      | exact List.forall_mem_nil _
      | refine List.forall_mem_cons.mpr ⟨hofList (by decide), ?_⟩

theorem accounts_form (h : Call.Form e.properties (Widget.ofTag e.tag) a) :
    Accounts e (Known e (.argument a.1) a.2) a.2 := by
  have hwidget : ∀ {position code}, ∀ i ∈ ofWidget (Widget.ofTag e.tag) e.properties,
      Known e position code i := fun i hi => .inl (ofWidget_subset e hi)
  cases h with
  | fixed kind hcode hnames =>
    exact accounts_of_visible kind.names (names_of_fixed kind _ hcode)
      fun i hi => hwidget i (hnames hi)
  | count n => exact (low_int n).accounts
  | size n =>
    have hunit : Low ".sp" := by decide
    exact ((low_int n).append hunit).accounts
  | cells n hname =>
    exact accounts_of_covers (covers_call [gridCells] (by decide) (by decide)
      (by simpa using hwidget _ hname) (low_int n).covers)
  | literal x => exact (low_literal x).accounts
  | progress x =>
    have hopen : Low "\x7b " := by decide
    have hclose : Low " \x7d" := by decide
    exact ((hopen.append (low_literal x)).append hclose).accounts
  | task =>
    have hopen : Scan.Shows "\x7b " ['\x7b', ' '] := by decide
    have hclose : Scan.Shows " \x7d" [' ', '\x7d'] := by decide
    exact accounts_of_shows [] ((hopen.append (Scan.shows_todo _)).append hclose) (by decide)
      (by simp)
  | @text key name p hkey hp =>
    have hpositions : ∀ entry ∈ Call.textArguments,
        (.argument entry.1, entry.2, "", "") ∈ Call.Position.texts := by decide
    simpa using accounts_text (hpositions _ hkey) hp
  | @label p hp =>
    have htext : Call.lambda ("Text(" ++ p.textCode ++ ")") =
        "\x7b Text(" ++ p.textCode ++ ") \x7d" := by
      rw [← String.toList_inj]
      simp [Call.lambda]
    rw [htext]
    exact accounts_text (by simp [Call.Position.texts]) hp
  | color hp hnames =>
    exact accounts_color hp (fun i hi => .inl hi) fun i hi => hwidget i (hnames hi)
  | painter hname => exact accounts_painter (hwidget _ hname)

theorem accounts_content (h : e.call.content = some code) :
    Accounts e (Known e .block code) code := by
  rcases Call.content_cases h with ⟨p, hp, rfl⟩ | ⟨comment, hcomment, rfl⟩
  · exact accounts_text (by simp [Call.Position.texts]) hp
  · have hvisible : Scan.visible .code ("// " ++ comment).toList = ['/', '/'] := by
      have hscan : Scan.scan .code "// ".toList = .line := by decide
      have hlead : Scan.visible .code "// ".toList = ['/', '/'] := by decide
      rw [String.toList_append, Scan.visible_append, hscan, hlead,
        Scan.visible_line hcomment.isLine, List.append_nil]
    exact accounts_of_visible [] (by rw [hvisible]; decide) (by simp)

-- ---------------------------------------------------------------------------
-- Modifiers
-- ---------------------------------------------------------------------------

theorem code_dimen (resource : String) :
    (Dimension.resource resource).code = (Expr.resource .dimen resource).code := by
  change "dimensionResource(R.dimen." ++ resource ++ ")" =
    "dimensionResource" ++ "(R." ++ "dimen" ++ "." ++ resource ++ ")"
  rw [← String.toList_inj]
  simp

theorem covers_dimension (h : Modifier.Gives e.properties d)
    (hfunction : ∀ i ∈ ofElement e, P i) : Covers e P d.code.toList := by
  obtain ⟨key, hkey⟩ := h
  obtain ⟨raw, hraw, hread⟩ := Option.bind_eq_some_iff.mp hkey
  obtain ⟨p, hp, rfl⟩ := Option.map_eq_some_iff.mp hraw
  rw [Dimension.read?] at hread
  split at hread
  case h_1 resource hresource =>
    cases hread
    have hmeaning : p.meaning = .code (.resource .dimen resource) := by
      rw [e.meaning_of_get? hp, Meaning.ofValue_dimen hresource]
    rw [code_dimen]
    refine covers_expr (Properties.mem_of_get? hp) hmeaning hfunction fun i hi => ?_
    rw [hmeaning] at hi
    cases hi
  case h_2 =>
    obtain ⟨n, -, rfl⟩ := Option.map_eq_some_iff.mp hread
    have hlow : Low (Dimension.dp n).code := (low_int n).append (by decide)
    exact hlow.covers

theorem covers_intercalate {texts : List String} (h : ∀ t ∈ texts, Covers e P t.toList) :
    Covers e P (String.intercalate ", " texts).toList := by
  induction texts with
  | nil => exact covers_of_occursIn (by decide)
  | cons first texts ih =>
    obtain ⟨hfirst, htexts⟩ := List.forall_mem_cons.mp h
    cases texts with
    | nil => simpa using hfirst
    | cons next texts =>
      have hrest : Covers e P ([] ++ ' ' :: (String.intercalate ", " (next :: texts)).toList) :=
        .append_cons (covers_of_occursIn (by decide)) (ih htexts) (by decide)
      have hboth := hfirst.append_cons hrest (by decide : (',').isAlpha = false)
      rw [String.intercalate_cons_cons, String.toList_append, String.toList_append]
      simpa using hboth

theorem covers_edges {edges : List Edge}
    (h : ∀ edge ∈ edges, edge.1 ∈ Modifier.edgeNames ∧ Modifier.Gives e.properties edge.2)
    (hfunction : ∀ i ∈ ofElement e, P i) :
    Covers e P (Modifier.edgesCode edges).toList := by
  have hnames : ∀ name ∈ Modifier.edgeNames, Low name := by decide
  refine covers_intercalate (List.forall_mem_map.mpr fun edge hedge => ?_)
  obtain ⟨hlabel, hgives⟩ := h edge hedge
  have hcovers : Covers e P (edge.1.toList ++ ' ' :: (['='] ++ ' ' :: edge.2.code.toList)) :=
    .append_cons (hnames _ hlabel).covers
      (.append_cons (covers_of_occursIn (by decide)) (covers_dimension hgives hfunction)
        (by decide)) (by decide)
  simpa using hcovers

theorem covers_ofList (h : ∀ t ∈ libraryWords, Text.occursIn t.2 l = false) :
    Covers e P (String.ofList l).toList := by
  rw [String.toList_ofList]
  exact covers_of_occursIn h

theorem covers_scaleAxes (x y : Number.Binary64) :
    Covers e P (Modifier.scaleAxes x y).code.toList := by
  -- the labels have capitals, but none that a name has
  refine covers_of_all (p := fun c => !c.isUpper || c == 'X' || c == 'Y') (by decide) ?_
  intro c hc
  change c ∈ (".scale(scaleX = " ++ x.literal ++ ", scaleY = " ++ y.literal ++ ")").toList at hc
  simp only [String.toList_append, List.mem_append] at hc
  rcases hc with (((hstart | hx) | hmiddle) | hy) | hend
  · revert c
    decide
  · simp [low_literal x c hx]
  · revert c
    decide
  · simp [low_literal y c hy]
  · revert c
    decide

theorem accounts_clickable (task : String) :
    Accounts e P (Modifier.clickable (Comment.todo task)).code := by
  have hstart : Scan.Plain ".clickable \x7b " := by decide
  have hend : Scan.Plain " \x7d" := by decide
  have hshows := (hstart.shows.append (Scan.shows_todo task)).append hend.shows
  have hcode : (Modifier.clickable (Comment.todo task)).code =
      ".clickable \x7b " ++ Comment.todo task ++ " \x7d" := by
    change ".clickable " ++ ("\x7b " ++ Comment.todo task ++ " \x7d") = _
    rw [← String.toList_inj]
    simp
  rw [String.toList_ofList, String.toList_ofList] at hshows
  rw [hcode]
  exact accounts_of_shows [] hshows (by decide) (by simp)

theorem mem_ofElement_background (hp : e.properties.get? "background" = some p)
    (hcode : p.meaning = .code expr) (hcolor : expr.isColor = true)
    (hshown : e.properties.raw? "visibility" ≠ some "gone") (h : i ∈ ofColor p.meaning) :
    i ∈ ofElement e := by
  have hbackground : i ∈ ofBackground e.properties := by
    rw [hcode] at h
    simp [ofBackground, hp, hcode, given, hcolor, h]
  have hmodifiers : i ∈ ofModifiers (Widget.ofTag e.tag) e.properties := by
    simp [ofModifiers, hshown, hbackground]
  simp [ofElement, hmodifiers]

theorem not_gone_of_mem (hm : m ∈ Modifier.chain ps call) (hne : m ≠ .zeroSize) :
    ps.raw? "visibility" ≠ some "gone" := by
  intro hgone
  rw [Modifier.chain, hgone] at hm
  exact hne (by simpa using hm)

theorem accounts_modifier {m : Modifier} (hm : m ∈ Modifier.chain e.properties e.call)
    (hcall : m.isCall = true) : Accounts e (· ∈ ofElement e) m.code := by
  have hsourced := Modifier.sourced_chain _ _ m hm
  cases m with
  | fillMaxSize | fillMaxWidth | fillMaxHeight | zeroSize | focusable =>
    exact accounts_of_covers (covers_ofList (by decide))
  | width d | height d | padding d =>
    exact accounts_of_covers (covers_call [] (by decide) (by decide) (by simp)
      (covers_dimension hsourced fun _ hi => hi))
  | edgePadding edges | widthIn edges | heightIn edges =>
    exact accounts_of_covers (covers_call [] (by decide) (by decide) (by simp)
      (covers_edges hsourced fun _ hi => hi))
  | scroll axis => cases axis <;> exact accounts_of_covers (covers_ofList (by decide))
  | background color =>
    obtain ⟨p, hp, hcode, hcolor⟩ := hsourced
    have hshown := not_gone_of_mem hm (by simp)
    refine accounts_of_covers (covers_call [] (by decide) (by decide) (by simp) ?_)
    exact covers_expr (Properties.mem_of_get? hp) hcode (fun _ hi => hi)
      fun i hi => mem_ofElement_background hp hcode hcolor hshown hi
  | alpha code =>
    exact accounts_of_covers (covers_call [] (by decide) (by decide) (by simp)
      (low_numeral hsourced).covers)
  | clickable code =>
    obtain ⟨task, rfl, -⟩ := hsourced
    exact accounts_clickable task
  | rotate x | scale x =>
    exact accounts_of_covers (covers_call [] (by decide) (by decide) (by simp)
      (low_literal x).covers)
  | scaleAxes x y => exact accounts_of_covers (covers_scaleAxes x y)
  | task text => cases hcall

-- ---------------------------------------------------------------------------
-- Imports
-- ---------------------------------------------------------------------------

theorem accounts_piece (h : (position, code) ∈ e.pieces) :
    Accounts e (Known e position code) code := by
  rw [Element.pieces, List.mem_append, List.mem_append] at h
  rcases h with (hargument | hblock) | hmodifier
  · obtain ⟨a, ha, heq⟩ := List.mem_map.mp hargument
    cases heq
    exact accounts_form ((Call.formed_arguments _ _).form a ha)
  · obtain ⟨content, hcontent, heq⟩ := List.mem_map.mp hblock
    cases heq
    exact accounts_content (Option.mem_toList.mp hcontent)
  · obtain ⟨m, hm, heq⟩ := List.mem_map.mp hmodifier
    cases heq
    obtain ⟨hmem, hcall⟩ := List.mem_filter.mp hm
    exact fun t ht before after hsplit hcode =>
      (accounts_modifier hmem hcall t ht before after hsplit hcode).imp_left .inl

theorem imported_of_uses (hvisits : Element.Visits root e) (hpiece : (position, code) ∈ e.pieces)
    (hi : i ∈ helpers ++ values) (huses : Uses code i.name before after) :
    i.path ∈ paths root ∨ InReference e before i.name.toList after ∨
      ColorsText e position code i := by
  rcases accounts_piece hpiece _ (mem_libraryWords hi) before after huses.1 huses.2 with
    (hmem | hcolor) | hreference
  · exact .inl (path_mem_paths.mpr (mem_ofLayout.mpr (.inr ⟨e, hvisits, hmem⟩)))
  · exact .inr (.inr hcolor)
  · exact .inr (.inl hreference)

/-- Every function that reads a resource and every name of a colour that a call uses is imported,
unless it stands in the name of a resource that a value of the element refers to, or the code is a
colour where a text is wanted. -/
theorem value_imported {root e : Element} (hvisits : root.Visits e)
    (hpiece : (position, code) ∈ e.pieces) (hi : i ∈ values)
    (huses : Uses code i.name before after) :
    i.path ∈ paths root ∨ InReference e before i.name.toList after ∨
      ColorsText e position code i :=
  imported_of_uses hvisits hpiece (List.mem_append_right _ hi) huses

def paddingCode : String :=
  ".padding(start = dimensionResource(R.dimen.a), end = dimensionResource(R.dimen.b))"

def paddedText : Element :=
  ⟨"TextView", [⟨"android:paddingStart", "@dimen/a"⟩, ⟨"android:paddingEnd", "@dimen/b"⟩], []⟩

theorem paddedText_imports :
    Element.Visits ⟨"merge", [], [paddedText]⟩ paddedText ∧
      (.modifier, paddingCode) ∈ paddedText.pieces ∧ dimensionResource ∈ values ∧
      Uses paddingCode dimensionResource.name
        ".padding(start = dimensionResource(R.dimen.a), end = ".toList "(R.dimen.b))".toList ∧
      dimensionResource.path ∈ paths ⟨"merge", [], [paddedText]⟩ := by
  have hvisits : Element.Visits ⟨"merge", [], [paddedText]⟩ paddedText :=
    .child rfl (List.mem_singleton_self paddedText) (.root rfl)
  have hpieces : paddedText.pieces =
      [(.argument "text", "\"\""), (.modifier, paddingCode)] := by decide
  have hpiece : (.modifier, paddingCode) ∈ paddedText.pieces := by simp [hpieces]
  have hname : dimensionResource.name = "dimensionResource" := shortName_ofList _
  have huses : Uses paddingCode dimensionResource.name
      ".padding(start = dimensionResource(R.dimen.a), end = ".toList "(R.dimen.b))".toList := by
    rw [hname]
    exact ⟨by simp [paddingCode], by decide⟩
  refine ⟨hvisits, hpiece, by decide, huses, ?_⟩
  rcases value_imported hvisits hpiece (by decide) huses with himported | hreference | hcolor
  · exact himported
  · -- no value is as long as the name
    obtain ⟨a, ha, family, start, rest, hvalue, -⟩ := hreference
    have hlong := congrArg List.length hvalue
    have hshort : ∀ a ∈ paddedText.attributes, a.value.toList.length = 8 := by decide
    rw [hshort a ha, hname] at hlong
    simp at hlong
    omega
  · obtain ⟨_, _, _, _, _, hposition, -⟩ := hcolor
    simp [Call.Position.texts] at hposition

def coloredText : Element := ⟨"TextView", [⟨"android:text", "#FFF"⟩], []⟩

theorem coloredText_not_imported :
    coloredText.Visits coloredText ∧
      (.argument "text", "Color(0xFFFFFFFF)") ∈ coloredText.pieces ∧
      color ∈ values ∧ Uses "Color(0xFFFFFFFF)" color.name [] "(0xFFFFFFFF)".toList ∧
      color.path ∉ paths coloredText := by
  have hpieces : coloredText.pieces = [(.argument "text", "Color(0xFFFFFFFF)")] := rfl
  have helement : ofElement coloredText = [text] := rfl
  have hname : color.name = "Color" := shortName_ofList _
  refine ⟨.root rfl, by simp [hpieces], by decide, ⟨by rw [hname]; decide, rfl⟩, ?_⟩
  rw [path_mem_paths, mem_ofLayout]
  rintro (halways | ⟨d, hd, hmem⟩)
  · simp [always] at halways
  · cases hd with
    | root => simp [helement] at hmem
    | child _ hc => simp [coloredText] at hc

end Import

end LayoutCompose
