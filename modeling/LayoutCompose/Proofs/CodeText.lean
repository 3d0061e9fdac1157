import LayoutCompose.Code.Modifier
import LayoutCompose.Code.Name
import LayoutCompose.Proofs.Scan
import Mathlib.Data.List.Basic

/-!
# What names and values are written as

Words that are run together have no character below the letters that the text did not
have. Numbers and colour values are written with digits, letters and a few signs, whatever
the layout holds. An expression is a reference to a resource, a colour value or an entry of
the two tables.
-/

namespace LayoutCompose

namespace Text

theorem after?_eq_some_iff {lead s rest : String} :
    after? lead s = some rest ↔ s = lead ++ rest := by
  rw [after?, Option.map_eq_some_iff, ← String.toList_inj, String.toList_append]
  constructor
  · rintro ⟨chars, hchars, rfl⟩
    rw [String.toList_ofList]
    exact (List.isPrefixOf?_eq_some_iff_append_eq.mp hchars).symm
  · intro h
    exact ⟨rest.toList, List.isPrefixOf?_eq_some_iff_append_eq.mpr h.symm, String.ofList_toList⟩

theorem startsWith_eq (lead s : String) : startsWith lead s = (after? lead s).isSome := by
  rw [startsWith, after?, Option.isSome_map, List.isSome_isPrefixOf?_eq_isPrefixOf]

theorem ofNat_ne (hpos : 0 < d.toNat) (h : d.toNat < n) : Char.ofNat n ≠ d := by
  rintro rfl
  by_cases hvalid : n.isValidChar
  · have hn : (Char.ofNat n).toNat = n := by rw [Char.ofNat, dif_pos hvalid]; rfl
    omega
  · have hn : (Char.ofNat n).toNat = 0 := by rw [Char.ofNat, dif_neg hvalid]; rfl
    omega

/-- No character gets an upper case below the letters. -/
theorem not_mem_uppercase (hpos : 0 < d.toNat) (hlow : d.toNat < 0x41) (h : c ≠ d) :
    d ∉ uppercase c := by
  have hascii : ∀ n < 0x80, (Char.ofNat n).toUpper = Char.ofNat n ∨
      0x40 < (Char.ofNat n).toUpper.toNat := by decide
  have hlong : ∀ entry ∈ longUppercase, ∀ n ∈ entry.2, 0x40 < n := by decide
  have hruns : ∀ run ∈ caseRuns, 0x40 < (run.first : Int) + run.shift := by decide +kernel
  unfold uppercase
  split
  case isTrue hsmall =>
    have hupper := hascii c.toNat hsmall
    rw [Char.ofNat_toNat] at hupper
    rw [List.mem_singleton]
    rintro rfl
    rcases hupper with hsame | hletter
    · exact h hsame.symm
    · omega
  case isFalse =>
    split
    case h_1 codes hcodes =>
      obtain ⟨before, after, htable, -⟩ := List.lookup_eq_some_iff.mp hcodes
      have hmem : (c.toNat, codes) ∈ longUppercase := by simp [htable]
      intro hd
      obtain ⟨n, hn, heq⟩ := List.mem_map.mp hd
      have hletter := hlong _ hmem n hn
      exact ofNat_ne hpos (by omega) heq
    case h_2 =>
      split
      case h_1 run hrun =>
        have hcontains := List.find?_some hrun
        have hbound := hruns run (List.mem_of_find?_eq_some hrun)
        simp only [CaseRun.contains, Bool.and_eq_true, decide_eq_true_eq] at hcontains
        have hupper : d.toNat < run.upper c.toNat := by
          rw [CaseRun.upper]
          omega
        simpa using (ofNat_ne hpos hupper).symm
      case h_2 => simpa using h.symm

theorem not_mem_splitOnP {p : Char → Bool} {l : List Char} (hc : p c = true ∨ c ∉ l) :
    ∀ piece ∈ l.splitOnP p, c ∉ piece := by
  induction l with
  | nil => simp
  | cons a l ih =>
    rw [List.mem_cons, not_or] at hc
    have ih := ih (hc.imp_right And.right)
    rw [List.splitOnP_cons_eq_if_modifyHead]
    split
    case isTrue => simpa using ih
    case isFalse ha =>
      have hne : c ≠ a := by
        rintro rfl
        exact hc.elim ha fun h => h.1 rfl
      cases hsplit : l.splitOnP p with
      | nil => simp
      | cons first rest =>
        rw [hsplit] at ih
        simpa [hne] using ih

end Text

theorem Name.not_mem_camelCase {s : String} (hpos : 0 < d.toNat) (hlow : d.toNat < 0x41)
    (h : isSeparator d = true ∨ d ∉ s.toList) : d ∉ (camelCase s).toList := by
  rw [camelCase, String.toList_ofList]
  intro hd
  obtain ⟨word, hword, hmem⟩ := List.mem_flatMap.mp hd
  have hfree := Text.not_mem_splitOnP h word hword
  cases word with
  | nil => simp [capitalize] at hmem
  | cons c rest =>
    rw [List.mem_cons, not_or] at hfree
    rcases List.mem_append.mp hmem with hfirst | hrest
    · exact Text.not_mem_uppercase hpos hlow (Ne.symm hfree.1) hfirst
    · exact hfree.2 hrest

namespace Number

def isNumeralChar (c : Char) : Bool :=
  c.isDigit || c == '-' || c == '.' || c == 'f'

theorem isDigit_of_mem_nat {n : Nat} (h : c ∈ (toString n).toList) : c.isDigit = true := by
  rw [Nat.toString_eq_repr, Nat.repr, String.toList_ofList] at h
  exact Nat.isDigit_of_mem_toDigits (by decide) (by decide) h

theorem isNumeralChar_of_mem_int {n : Int} (h : c ∈ (toString n).toList) :
    isNumeralChar c = true := by
  cases n with
  | ofNat n =>
    have hdigit : c.isDigit = true := @isDigit_of_mem_nat c n h
    simp [isNumeralChar, hdigit]
  | negSucc n =>
    have h : c ∈ ("-" ++ toString n.succ).toList := h
    rw [String.toList_append, List.mem_append] at h
    rcases h with hsign | hdigits
    · have hsign : c = '-' := by simpa using hsign
      simp [isNumeralChar, hsign]
    · simp [isNumeralChar, isDigit_of_mem_nat hdigits]

theorem Binary64.isDigit_digit (n : Nat) : (digit n).isDigit = true := by
  have hlast : n % 10 < 10 := Nat.mod_lt n (by decide)
  have hall : ∀ k < 10, (Char.ofNat ('0'.toNat + k)).isDigit = true := by decide
  exact hall (n % 10) hlast

theorem Binary64.isDigit_of_mem_placesText (h : c ∈ placesText n) : c.isDigit = true := by
  have hmem : c ∈ [digit (n / 100), digit (n / 10), digit n] := by
    rw [placesText, Text.dropEnd, List.mem_reverse] at h
    exact List.mem_reverse.mp ((List.dropWhile_sublist _).subset h)
  simp only [List.mem_cons, List.not_mem_nil, or_false] at hmem
  rcases hmem with rfl | rfl | rfl <;> exact isDigit_digit _

theorem Binary64.isNumeralChar_of_mem_literal {x : Binary64} (h : c ∈ x.literal.toList) :
    isNumeralChar c = true := by
  simp only [literal, String.toList_append, List.mem_append, String.toList_ofList] at h
  rcases h with (((hsign | hwhole) | hpoint) | hplaces) | hend
  · have hsign : c = '-' := by
      split at hsign <;> simp_all
    simp [isNumeralChar, hsign]
  · simp [isNumeralChar, isDigit_of_mem_nat hwhole]
  · have hpoint : c = '.' := by
      split at hpoint <;> simp_all
    simp [isNumeralChar, hpoint]
  · simp [isNumeralChar, isDigit_of_mem_placesText hplaces]
  · have hend : c = 'f' := by simpa using hend
    simp [isNumeralChar, hend]

theorem not_isUpper_of_isNumeralChar (h : isNumeralChar c = true) : c.isUpper = false := by
  simp only [isNumeralChar, Bool.or_eq_true, beq_iff_eq] at h
  rcases h with ((hdigit | rfl) | rfl) | rfl
  · have hdigit := (Char.isDigit_iff_toNat.mp hdigit).2
    refine decide_eq_false fun hupper => ?_
    have hletter : 'A'.toNat ≤ c.toNat := UInt32.le_iff_toNat_le.mp hupper.1
    have hbelow : '9'.toNat < 'A'.toNat := by decide
    omega
  all_goals decide

end Number

-- ---------------------------------------------------------------------------
-- Expressions
-- ---------------------------------------------------------------------------

theorem Argb.exists_hexDigit_of_mem {color : Argb}
    (h : c ∈ color.alpha.digits ++ color.red.digits ++ color.green.digits ++ color.blue.digits) :
    ∃ d, c = Number.hexDigit d := by
  simp only [Channel.digits, List.mem_append, List.mem_cons, List.not_mem_nil, or_false] at h
  rcases h with (((rfl | rfl) | rfl | rfl) | rfl | rfl) | rfl | rfl <;> exact ⟨_, rfl⟩

theorem Argb.exists_of_read? (h : read? value = some color) :
    ∃ digits, value.toList = '#' :: digits := by
  unfold read? at h
  split at h
  case h_1 digits hvalue => exact ⟨digits, hvalue⟩
  case h_2 => cases h

def Expr.tabled : List Expr := (Expr.systemColors ++ Expr.themeAttributes).map (·.2)

def Expr.word : Expr → String
  | namedColor name | themeColor name => name
  | _ => ""

theorem Expr.isAlpha_word {expr : Expr} (h : expr ∈ tabled) :
    ∀ c ∈ expr.word.toList, c.isAlpha = true := by
  revert expr
  decide +kernel

theorem Expr.ne_resource {expr : Expr} (h : expr ∈ tabled) (family : Resource) (name : String) :
    expr ≠ .resource family name := by
  rintro rfl
  revert h
  simp [tabled, systemColors, themeAttributes]

def Expr.IsClosed (expr : Expr) : Prop := (∃ color, expr = .argb color) ∨ expr ∈ tabled

theorem Scan.plain_of_isAlphanum {text : String} (h : ∀ c ∈ text.toList, c.isAlphanum = true) :
    Plain text := by
  intro c hc
  have hc := h c hc
  simp only [isPlain, Bool.and_eq_true, bne_iff_ne]
  refine ⟨⟨⟨?_, ?_⟩, ?_⟩, ?_⟩ <;> rintro rfl <;> simp at hc

theorem Scan.plain_of_isNumeralChar {text : String}
    (h : ∀ c ∈ text.toList, Number.isNumeralChar c = true) : Plain text := by
  intro c hc
  have hc := h c hc
  simp only [isPlain, Bool.and_eq_true, bne_iff_ne]
  refine ⟨⟨⟨?_, ?_⟩, ?_⟩, ?_⟩ <;> rintro rfl <;> simp [Number.isNumeralChar] at hc

theorem Expr.plain_argb (color : Argb) : Scan.Plain (Expr.argb color).code := by
  refine .append (.append (by decide) (Scan.plain_of_isAlphanum ?_)) (by decide)
  intro c hc
  rw [String.toList_ofList] at hc
  obtain ⟨d, rfl⟩ := Argb.exists_hexDigit_of_mem hc
  clear hc
  revert d
  decide

theorem Expr.IsClosed.plain {expr : Expr} (h : expr.IsClosed) : Scan.Plain expr.code := by
  rcases h with ⟨color, rfl⟩ | htabled
  · exact plain_argb color
  have hword := isAlpha_word htabled
  have hplain : Scan.Plain expr.word := by
    refine Scan.plain_of_isAlphanum fun c hc => ?_
    simp [Char.isAlphanum, hword c hc]
  cases expr with
  | resource family name => exact (ne_resource htabled family name rfl).elim
  | argb color => exact plain_argb color
  | namedColor name => exact .append (by decide) hplain
  | themeColor role => exact .append (by decide) hplain
  | dp n =>
    refine .append (Scan.plain_of_isNumeralChar fun c hc => ?_) (by decide)
    simp [Number.isNumeralChar, Number.isDigit_of_mem_nat hc]

theorem Expr.mem_tabled (h : systemColor? name = some expr ∨ themeAttribute? name = some expr) :
    expr ∈ tabled := by
  have hlookup : ∀ table : List (String × Expr), table.lookup name = some expr →
      expr ∈ table.map (·.2) := by
    intro table htable
    obtain ⟨before, after, rfl, -⟩ := List.lookup_eq_some_iff.mp htable
    simp
  rw [tabled, List.map_append, List.mem_append]
  exact h.imp (hlookup _) (hlookup _)

-- ---------------------------------------------------------------------------
-- Values
-- ---------------------------------------------------------------------------

namespace Meaning

inductive Denotes : String → Expr → Prop where
  | resource (family : Resource) (name : String) :
      Denotes ("@" ++ family.family ++ "/" ++ name) (.resource family name)
  | systemColor (h : Expr.systemColor? name = some expr) :
      Denotes ("@android:color/" ++ name) expr
  | themeAttribute (hlead : lead ∈ ["?attr/", "?android:attr/"])
      (h : Expr.themeAttribute? name = some expr) : Denotes (lead ++ name) expr
  | color (h : Argb.read? value = some color) : Denotes value (.argb color)

/-- A value that looks like no reference and no colour. -/
def IsPlain (value : String) : Prop := ∀ c ∈ value.toList.head?, c ∉ ['@', '?', '#']

/-- How the tasks begin that end with a value. -/
def taskLeads : List String :=
  ["map system color ", "map theme attribute ", "apply style ", "data binding ", "resolve ",
    "invalid color "]

theorem not_mem_taskLead (h : lead ∈ taskLeads) : '/' ∉ lead.toList ∧ '\n' ∉ lead.toList := by
  revert lead
  decide

inductive Suits (value : String) : Meaning → Prop where
  | literal (h : IsPlain value) : Suits value .literal
  | code (h : Denotes value expr) : Suits value (.code expr)
  | unresolved (hlead : lead ∈ taskLeads) (h : ¬ IsPlain value) (reason : String) :
      Suits value (.unresolved (lead ++ value) reason)

theorem resource?_eq_some (h : resource? value = some expr) :
    ∃ family name, expr = .resource family name ∧
      Text.after? ("@" ++ family.family ++ "/") value = some name := by
  obtain ⟨family, -, hfamily⟩ := List.exists_of_findSome?_eq_some h
  obtain ⟨name, hname, rfl⟩ := Option.map_eq_some_iff.mp hfamily
  exact ⟨family, name, rfl, hname⟩

theorem not_isPlain_of_startsWith (hlead : lead.toList.head? ∈ ['@', '?', '#'].map some)
    (h : Text.startsWith lead value = true) : ¬ IsPlain value := by
  obtain ⟨c, hc, hhead⟩ := List.mem_map.mp hlead
  obtain ⟨tail, hlead⟩ := List.head?_eq_some_iff.mp hhead.symm
  obtain ⟨rest, hvalue⟩ := List.isPrefixOf_iff_prefix.mp h
  intro hplain
  exact hplain c (by simp [← hvalue, hlead]) hc

theorem isPlain_of_startsWith (hat : Text.startsWith "@" value = false)
    (hmark : Text.startsWith "?" value = false) (hhash : Text.startsWith "#" value = false) :
    IsPlain value := by
  intro c hc
  obtain ⟨rest, hvalue⟩ := List.head?_eq_some_iff.mp hc
  rw [Text.startsWith, hvalue] at hat hmark hhash
  have hne : ∀ d, [d].isPrefixOf (c :: rest) = false → c ≠ d := by
    rintro _ hd rfl
    simp at hd
  simp only [List.mem_cons, List.not_mem_nil, or_false, not_or]
  exact ⟨hne _ hat, hne _ hmark, hne _ hhash⟩

theorem suits_ofOther (value : String) : Suits value (ofOther value) := by
  unfold ofOther
  split
  case isTrue h => exact .unresolved (by decide) (not_isPlain_of_startsWith (by decide) h) _
  split
  case isTrue h => exact .unresolved (by decide) (not_isPlain_of_startsWith (by decide) h) _
  split
  case isTrue h =>
    rcases Bool.or_eq_true_iff.mp h with h | h <;>
      exact .unresolved (by decide) (not_isPlain_of_startsWith (by decide) h) _
  case isFalse hreference =>
  split
  case isTrue hhash =>
    unfold ofColorLiteral
    split
    case h_1 color hcolor => exact .code (.color hcolor)
    case h_2 => exact .unresolved (by decide) (not_isPlain_of_startsWith (by decide) hhash) _
  case isFalse hhash =>
    simp only [Bool.or_eq_true, not_or, Bool.not_eq_true] at hreference hhash
    exact .literal (isPlain_of_startsWith hreference.1 hreference.2 hhash)

theorem suits_ofValue (value : String) : Suits value (ofValue value) := by
  have hmarked : ∀ lead name, Text.after? lead value = some name →
      lead.toList.head? ∈ ['@', '?', '#'].map some → ¬ IsPlain value := by
    intro lead name hname hlead
    refine not_isPlain_of_startsWith hlead ?_
    rw [Text.startsWith_eq, hname]
    rfl
  unfold ofValue
  split
  case h_1 expr hexpr =>
    obtain ⟨family, name, rfl, hname⟩ := resource?_eq_some hexpr
    obtain rfl := Text.after?_eq_some_iff.mp hname
    exact .code (.resource family name)
  split
  case h_1 name hname =>
    have hplain := hmarked _ _ hname (by decide)
    obtain rfl := Text.after?_eq_some_iff.mp hname
    unfold ofSystemColor
    split
    case h_1 expr hexpr => exact .code (.systemColor hexpr)
    case h_2 => exact .unresolved (by decide) hplain _
  split
  case h_1 name hname =>
    obtain ⟨lead, hlead, hname⟩ : ∃ lead ∈ ["?attr/", "?android:attr/"],
        Text.after? lead value = some name := by
      rcases Option.or_eq_some_iff.mp hname with hname | ⟨-, hname⟩
      · exact ⟨_, List.mem_cons_self, hname⟩
      · exact ⟨_, by decide, hname⟩
    have hmark : ∀ lead ∈ ["?attr/", "?android:attr/"],
        lead.toList.head? ∈ ['@', '?', '#'].map some := by decide
    have hplain := hmarked _ _ hname (hmark lead hlead)
    obtain rfl := Text.after?_eq_some_iff.mp hname
    unfold ofThemeAttribute
    split
    case h_1 expr hexpr => exact .code (.themeAttribute hlead hexpr)
    case h_2 => exact .unresolved (by decide) hplain _
  exact suits_ofOther value

/-- A value has one expression at most, and that is what it means. -/
theorem Denotes.ofValue_eq (h : Denotes value expr) : ofValue value = .code expr := by
  cases h with
  | resource family name =>
    have hfound : resource? ("@" ++ family.family ++ "/" ++ name) =
        some (.resource family name) := by
      cases family <;>
        simp [resource?, Resource.all, Resource.family, Text.after?, List.isPrefixOf?]
    rw [ofValue, hfound]
  | @systemColor name _ h =>
    have hnone : resource? ("@android:color/" ++ name) = none := by
      simp [resource?, Resource.all, Resource.family, Text.after?, List.isPrefixOf?]
    simp only [ofValue, hnone, Text.after?_eq_some_iff.mpr rfl, ofSystemColor, h]
  | @themeAttribute lead name _ hlead h =>
    simp only [List.mem_cons, List.not_mem_nil, or_false] at hlead
    have hnone : resource? (lead ++ name) = none := by
      rcases hlead with rfl | rfl <;>
        simp [resource?, Resource.all, Resource.family, Text.after?, List.isPrefixOf?]
    have hsystem : Text.after? "@android:color/" (lead ++ name) = none := by
      rcases hlead with rfl | rfl <;> simp [Text.after?, List.isPrefixOf?]
    have htheme : (Text.after? "?attr/" (lead ++ name)).or
        (Text.after? "?android:attr/" (lead ++ name)) = some name := by
      rcases hlead with rfl | rfl <;> simp [Text.after?, List.isPrefixOf?]
    simp only [ofValue, hnone, hsystem, htheme, ofThemeAttribute, h]
  | color h =>
    obtain ⟨digits, hvalue⟩ := Argb.exists_of_read? h
    simp [ofValue, resource?, Resource.all, Resource.family, Text.after?, List.isPrefixOf?, hvalue,
      ofOther, Text.startsWith, ofColorLiteral, h]

theorem Denotes.not_isPlain (h : Denotes value expr) : ¬ IsPlain value := by
  obtain ⟨c, hc, hhead⟩ : ∃ c ∈ ['@', '?', '#'], value.toList.head? = some c := by
    cases h with
    | resource | systemColor => exact ⟨'@', by decide, by simp⟩
    | themeAttribute hlead =>
      simp only [List.mem_cons, List.not_mem_nil, or_false] at hlead
      rcases hlead with rfl | rfl <;> exact ⟨'?', by decide, by simp⟩
    | color h =>
      obtain ⟨digits, hvalue⟩ := Argb.exists_of_read? h
      exact ⟨'#', by decide, by simp [hvalue]⟩
  exact fun hplain => hplain c hhead hc

theorem ofValue_eq_code_iff : ofValue value = .code expr ↔ Denotes value expr := by
  refine ⟨fun h => ?_, Denotes.ofValue_eq⟩
  have hsuits := h ▸ suits_ofValue value
  cases hsuits with
  | code hdenotes => exact hdenotes

/-- A resource is denoted by references alone. -/
theorem denotes_resource_iff :
    Denotes value (.resource family name) ↔ value = "@" ++ family.family ++ "/" ++ name := by
  refine ⟨fun h => ?_, fun h => h ▸ .resource family name⟩
  have htabled : ∀ expr ∈ Expr.tabled, expr ≠ .resource family name :=
    fun _ h => Expr.ne_resource h family name
  cases h with
  | resource => rfl
  | systemColor h => exact (htabled _ (Expr.mem_tabled (.inl h)) rfl).elim
  | themeAttribute _ h => exact (htabled _ (Expr.mem_tabled (.inr h)) rfl).elim

theorem ofValue_eq_code (h : ofValue value = .code expr) :
    (∃ family name, expr = .resource family name ∧
        Text.after? ("@" ++ family.family ++ "/") value = some name) ∨
      expr.IsClosed := by
  cases ofValue_eq_code_iff.mp h with
  | resource family name => exact .inl ⟨family, name, rfl, Text.after?_eq_some_iff.mpr rfl⟩
  | systemColor h => exact .inr (Or.inr (Expr.mem_tabled (.inl h)))
  | themeAttribute _ h => exact .inr (Or.inr (Expr.mem_tabled (.inr h)))
  | color _ => exact .inr (Or.inl ⟨_, rfl⟩)

end Meaning

-- ---------------------------------------------------------------------------
-- Properties
-- ---------------------------------------------------------------------------

theorem Properties.mem_of_get? {ps : Properties} (h : ps.get? key = some p) : p ∈ ps :=
  List.mem_of_find?_eq_some h

theorem Element.meaning_of_mem {e : Element} (h : p ∈ e.properties) :
    ∃ a ∈ e.attributes,
      p.raw = a.value ∧ (p.meaning = .preview ∨ p.meaning = .ofValue a.value) := by
  obtain ⟨a, ha, rfl⟩ := List.mem_map.mp h
  refine ⟨a, (List.mem_filter.mp ha).1, ?_⟩
  unfold Property.ofAttribute
  split
  · exact ⟨rfl, .inl rfl⟩
  · exact ⟨rfl, .inr rfl⟩

theorem Element.meaning_eq_code {e : Element} (h : p ∈ e.properties)
    (hcode : p.meaning = .code expr) :
    (∃ family name, expr = .resource family name ∧
        ∃ a ∈ e.attributes, Text.after? ("@" ++ family.family ++ "/") a.value = some name) ∨
      expr.IsClosed := by
  obtain ⟨a, ha, -, hmeaning⟩ := e.meaning_of_mem h
  rw [hcode] at hmeaning
  rcases hmeaning with hpreview | hvalue
  · cases hpreview
  rcases Meaning.ofValue_eq_code hvalue.symm with ⟨family, name, rfl, hname⟩ | hother
  · exact .inl ⟨family, name, rfl, a, ha, hname⟩
  · exact .inr hother

-- ---------------------------------------------------------------------------
-- Arguments
-- ---------------------------------------------------------------------------

namespace Call

variable {given : List String}

theorem forall_mem_optional {P : Argument → Prop} {code : Option String} :
    (∀ a ∈ optional key code, P a) ↔ ∀ c, code = some c → P (key, c) := by
  cases code <;> simp [optional]

theorem mem_arrangements (h : verticalArrangement? given = some code ∨
    horizontalArrangement? given = some code) :
    code ∈ ["Arrangement.Center", "Arrangement.Bottom", "Arrangement.End"] := by
  unfold verticalArrangement? horizontalArrangement? at h
  grind

theorem mem_alignments (h : horizontalAlignment? given = some code ∨
    verticalAlignment? given = some code) :
    code ∈ ["Alignment.CenterHorizontally", "Alignment.End", "Alignment.CenterVertically",
      "Alignment.Bottom"] := by
  unfold horizontalAlignment? verticalAlignment? at h
  grind

theorem mem_boxAlignments (h : boxAlignment? given = some code) :
    code ∈ ["Alignment.TopStart", "Alignment.TopCenter", "Alignment.TopEnd",
      "Alignment.CenterStart", "Alignment.Center", "Alignment.CenterEnd",
      "Alignment.BottomStart", "Alignment.BottomCenter", "Alignment.BottomEnd"] := by
  have hvertical : boxVertical? given ∈ [none, some "Center", some "Bottom", some "Top"] := by
    unfold boxVertical?
    grind
  have hhorizontal : boxHorizontal? given ∈ [none, some "Center", some "End", some "Start"] := by
    unfold boxHorizontal?
    grind
  simp only [List.mem_cons, List.not_mem_nil, or_false] at hvertical hhorizontal
  unfold boxAlignment? at h
  rcases hvertical with hv | hv | hv | hv <;> rcases hhorizontal with hh | hh | hh | hh <;>
    rw [hv, hh] at h <;> cases h <;> decide

theorem mem_textAligns (h : textAlign? given = some code) :
    code ∈ ["TextAlign.Center", "TextAlign.End", "TextAlign.Start"] := by
  obtain ⟨token, -, htoken⟩ := List.exists_of_findSome?_eq_some h
  grind

theorem mem_contentScales (h : contentScale? value = some code) :
    code ∈ ["ContentScale.Crop", "ContentScale.Fit", "ContentScale.FillBounds",
      "ContentScale.Inside"] := by
  unfold contentScale? at h
  split at h <;> cases h <;> simp

theorem mem_keyboardCodes (h : keyboard? given = some kind) :
    "KeyboardOptions(keyboardType = KeyboardType." ++ kind ++ ")" ∈ [
      "KeyboardOptions(keyboardType = KeyboardType.NumberPassword)",
      "KeyboardOptions(keyboardType = KeyboardType.Password)",
      "KeyboardOptions(keyboardType = KeyboardType.Email)",
      "KeyboardOptions(keyboardType = KeyboardType.Number)",
      "KeyboardOptions(keyboardType = KeyboardType.Phone)",
      "KeyboardOptions(keyboardType = KeyboardType.Uri)"] := by
  have hkind : kind ∈ ["NumberPassword", "Password", "Email", "Number", "Phone", "Uri"] := by
    unfold keyboard? at h
    grind
  simp only [List.mem_cons, List.not_mem_nil, or_false] at hkind
  rcases hkind with rfl | rfl | rfl | rfl | rfl | rfl <;> decide

end Call

end LayoutCompose
