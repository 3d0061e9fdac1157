import LayoutCompose.Proofs.SlotTypes

/-!
# Names of resources in expressions

An expression should not reach beyond its own text: its brackets nest and close, its
literals end, and it has no comment and no line break outside them. Colours and looked-up
expressions never do. A reference is written with its name as it stands, whatever that is,
so the expression keeps to itself exactly if the name does between two brackets. The same
holds of dimensions.
-/

namespace LayoutCompose

namespace Scan

inductive Spot where
  | code
  /-- In code, after a slash. -/
  | slash
  /-- In a literal that this quote began. -/
  | literal (quote : Char)
  /-- In such a literal, after a backslash. -/
  | escape (quote : Char)
  deriving DecidableEq, Repr

/-- A spot, and the closing brackets that are due there, the next one first. -/
structure Cursor where
  due : List Char
  spot : Spot
  deriving DecidableEq, Repr

namespace Cursor

/-- A character outside literals. A line break or the start of a comment ends the reading. -/
def inCode (due : List Char) (afterSlash : Bool) (c : Char) : Option Cursor :=
  if c == '"' || c == '\x27' then some ⟨due, .literal c⟩
  else if c == '\n' || c == '\r' || (afterSlash && (c == '/' || c == '*')) then none
  else (nest due c).map fun due => ⟨due, if c == '/' then .slash else .code⟩

def next : Cursor → Char → Option Cursor
  | ⟨due, .code⟩, c => inCode due false c
  | ⟨due, .slash⟩, c => inCode due true c
  | ⟨due, .literal quote⟩, c =>
    some ⟨due, if c == '\\' then .escape quote else if c == quote then .code else .literal quote⟩
  | ⟨due, .escape quote⟩, _ => some ⟨due, .literal quote⟩

def follow (start : Cursor) (text : List Char) : Option Cursor :=
  text.foldlM next start

theorem follow_append (start : Cursor) (a b : List Char) :
    start.follow (a ++ b) = (start.follow a).bind (·.follow b) :=
  List.foldlM_append

end Cursor

/-- Code with nested and closed brackets in which every literal ends, without a comment and
without a line break outside literals. -/
def SelfContained (text : String) : Prop :=
  Cursor.follow ⟨[], .code⟩ text.toList = some ⟨[], .code⟩

instance (text : String) : Decidable (SelfContained text) :=
  inferInstanceAs (Decidable (_ = _))

def isBare (c : Char) : Bool :=
  isPlain c && c != '\x27'

theorem next_of_isBare (h : isBare c = true) (due : List Char) :
    Cursor.next ⟨due, .code⟩ c = (nest due c).map (⟨·, .code⟩) := by
  simp only [isBare, isPlain, Bool.and_eq_true, bne_iff_ne] at h
  obtain ⟨⟨⟨⟨hquote, hslash⟩, hfeed⟩, hreturn⟩, hmark⟩ := h
  simp [Cursor.next, Cursor.inCode, hquote, hslash, hfeed, hreturn, hmark]

theorem follow_of_bare (h : ∀ c ∈ l, isBare c = true) (due : List Char) :
    Cursor.follow ⟨due, .code⟩ l = (nesting due l).map (⟨·, .code⟩) := by
  induction l generalizing due with
  | nil => rfl
  | cons c l ih =>
    obtain ⟨hc, hl⟩ := List.forall_mem_cons.mp h
    rw [Cursor.follow, nesting, List.foldlM_cons, List.foldlM_cons, next_of_isBare hc due]
    cases nest due c with
    | none => rfl
    | some due' => exact ih hl due'

theorem Complete.selfContained (h : Complete text) (hbare : ∀ c ∈ text.toList, isBare c = true) :
    SelfContained text := by
  have hplain : Plain text := by
    intro c hc
    have hc := hbare c hc
    rw [isBare, Bool.and_eq_true] at hc
    exact hc.1
  have hnesting := h.nesting
  rw [hplain.shows.visible] at hnesting
  rw [SelfContained, follow_of_bare hbare, hnesting]
  rfl

/-- What opens one round bracket before a name is as good as the bracket alone. -/
theorem selfContained_wrap_iff {before : String} (name : String)
    (hbare : ∀ c ∈ before.toList, isBare c = true) (h : nesting [] before.toList = some [')']) :
    SelfContained (before ++ name ++ ")") ↔ SelfContained ("(" ++ name ++ ")") := by
  have hopen : Cursor.follow ⟨[], .code⟩ "(".toList = some ⟨[')'], .code⟩ := by decide
  have hbefore : Cursor.follow ⟨[], .code⟩ before.toList = some ⟨[')'], .code⟩ := by
    rw [follow_of_bare hbare, h]
    rfl
  simp only [SelfContained, String.toList_append, Cursor.follow_append, hopen, hbefore]

end Scan

open Scan

-- ---------------------------------------------------------------------------
-- Characters of expressions
-- ---------------------------------------------------------------------------

theorem isBare_of_isAlphanum (h : c.isAlphanum = true) : isBare c = true := by
  have hne : ∀ d, d.isAlphanum = false → c ≠ d := by
    rintro d hd rfl
    simp [h] at hd
  simp [isBare, isPlain, hne]

theorem isBare_of_isNameChar (h : Resource.isNameChar c = true) : isBare c = true := by
  simp only [Resource.isNameChar, Bool.or_eq_true, beq_iff_eq] at h
  rcases h with (halphanum | rfl) | rfl
  · exact isBare_of_isAlphanum halphanum
  all_goals decide

theorem isBare_of_isNumeralChar (h : Number.isNumeralChar c = true) : isBare c = true := by
  simp only [Number.isNumeralChar, Bool.or_eq_true, beq_iff_eq] at h
  rcases h with ((hdigit | rfl) | rfl) | rfl
  · exact isBare_of_isAlphanum (by simp [Char.isAlphanum, hdigit])
  all_goals decide

theorem bare_append {a b : String} (ha : ∀ c ∈ a.toList, isBare c = true)
    (hb : ∀ c ∈ b.toList, isBare c = true) : ∀ c ∈ (a ++ b).toList, isBare c = true := by
  intro c hc
  rw [String.toList_append, List.mem_append] at hc
  exact hc.elim (ha c) (hb c)

theorem selfContained_name {name : String} (h : ∀ c ∈ name.toList, Resource.isNameChar c = true) :
    SelfContained ("(" ++ name ++ ")") := by
  have hwraps : Wraps "(" ")" := wraps_ofList (by decide)
  refine ((complete_name h).wrap hwraps).selfContained ?_
  exact bare_append (bare_append (by decide) fun c hc => isBare_of_isNameChar (h c hc)) (by decide)

namespace Expr

theorem bare_argb (color : Argb) : ∀ c ∈ (Expr.argb color).code.toList, isBare c = true := by
  refine bare_append (bare_append (by decide) fun c hc => ?_) (by decide)
  rw [String.toList_ofList] at hc
  obtain ⟨d, rfl⟩ := Argb.exists_hexDigit_of_mem hc
  clear hc
  revert d
  decide

theorem IsClosed.bare {expr : Expr} (h : expr.IsClosed) :
    ∀ c ∈ expr.code.toList, isBare c = true := by
  rcases h with ⟨color, rfl⟩ | htabled
  · exact bare_argb color
  have hword : ∀ c ∈ expr.word.toList, isBare c = true := by
    intro c hc
    exact isBare_of_isAlphanum (by simp [Char.isAlphanum, isAlpha_word htabled c hc])
  cases expr with
  | resource family name => exact (ne_resource htabled family name rfl).elim
  | argb color => exact bare_argb color
  | namedColor name => exact bare_append (by decide) hword
  | themeColor role => exact bare_append (by decide) hword
  | dp n =>
    refine bare_append (fun c hc => isBare_of_isNumeralChar ?_) (by decide)
    simp [Number.isNumeralChar, Number.isDigit_of_mem_nat hc]

theorem selfContained_resource_iff (family : Resource) (name : String) :
    SelfContained (Expr.resource family name).code ↔ SelfContained ("(" ++ name ++ ")") := by
  change SelfContained (family.accessor ++ "(R." ++ family.family ++ "." ++ name ++ ")") ↔ _
  refine selfContained_wrap_iff name ?_ ?_ <;> cases family <;> decide

theorem selfContained_code_iff {expr : Expr} (h : Meaning.Denotes value expr) :
    SelfContained expr.code ↔ ∀ (family : Resource) name,
      value = "@" ++ family.family ++ "/" ++ name → SelfContained ("(" ++ name ++ ")") := by
  rcases Meaning.ofValue_eq_code h.ofValue_eq with ⟨family, name, rfl, hname⟩ | hclosed
  · rw [selfContained_resource_iff]
    have hvalue := Text.after?_eq_some_iff.mp hname
    refine ⟨fun hcontained family' name' hvalue' => ?_, fun hall => hall family name hvalue⟩
    cases h.ofValue_eq.symm.trans (Meaning.denotes_resource_iff.mpr hvalue').ofValue_eq
    exact hcontained
  · refine iff_of_true (hclosed.complete.selfContained hclosed.bare) fun family name hvalue => ?_
    have hresource := (Meaning.denotes_resource_iff.mpr hvalue).ofValue_eq
    cases h.ofValue_eq.symm.trans hresource
    rcases hclosed with ⟨color, hcolor⟩ | htabled
    · cases hcolor
    · exact (ne_resource htabled family name rfl).elim

end Expr

theorem Dimension.selfContained_code_iff (h : read? value = some d) :
    SelfContained d.code ↔
      ∀ name, value = "@dimen/" ++ name → SelfContained ("(" ++ name ++ ")") := by
  rw [read?] at h
  split at h
  case h_1 name hname =>
    cases h
    have hvalue := Text.after?_eq_some_iff.mp hname
    have hiff := Expr.selfContained_resource_iff .dimen name
    refine hiff.trans ⟨fun hcontained name' hvalue' => ?_, fun hall => hall name hvalue⟩
    cases hname.symm.trans (Text.after?_eq_some_iff.mpr hvalue')
    exact hcontained
  case h_2 hnone =>
    obtain ⟨n, -, rfl⟩ := Option.map_eq_some_iff.mp h
    refine iff_of_true ?_ fun name hvalue => ?_
    · have hunit : Complete ".dp" := complete_ofList (by decide)
      refine ((complete_int n).append hunit).selfContained (bare_append ?_ (by decide))
      exact fun c hc => isBare_of_isNumeralChar (Number.isNumeralChar_of_mem_int hc)
    · cases hnone.symm.trans (Text.after?_eq_some_iff.mpr hvalue)

namespace Property

theorem denotes_of_code (h : (ofAttribute a).meaning = .code expr) :
    Meaning.Denotes a.value expr ∧ (ofAttribute a).value = expr.code := by
  refine ⟨?_, by rw [value, h]⟩
  rw [ofAttribute] at h
  split at h
  · cases h
  · exact Meaning.ofValue_eq_code_iff.mp h

/-- An expression keeps to itself exactly if the name of the resource that its value refers to
does between brackets, and so does a dimension; names of resources do, but a name that does not
is written all the same, since every reference to a resource is an expression. -/
theorem selfContained_value_iff (value : String) :
    (∀ key expr, (ofAttribute ⟨key, value⟩).meaning = .code expr →
      (SelfContained (ofAttribute ⟨key, value⟩).value ↔ ∀ (family : Resource) name,
        value = "@" ++ family.family ++ "/" ++ name → SelfContained ("(" ++ name ++ ")"))) ∧
    (∀ d, Dimension.read? value = some d →
      (SelfContained d.code ↔
        ∀ name, value = "@dimen/" ++ name → SelfContained ("(" ++ name ++ ")"))) ∧
    ∀ (family : Resource) name, value = "@" ++ family.family ++ "/" ++ name →
      (∀ key, Text.startsWith "tools:" key = false →
        (ofAttribute ⟨key, value⟩).meaning = .code (.resource family name)) ∧
      (Resource.IsName name → SelfContained ("(" ++ name ++ ")")) := by
  refine ⟨fun key expr h => ?_, fun d => Dimension.selfContained_code_iff, ?_⟩
  · obtain ⟨hdenotes, hcode⟩ := denotes_of_code h
    rw [hcode]
    exact Expr.selfContained_code_iff hdenotes
  · rintro family name rfl
    refine ⟨fun key hkey => ?_, fun hname => selfContained_name hname.2⟩
    rw [Text.startsWith_eq, Option.isSome_eq_false_iff, Option.isNone_iff_eq_none] at hkey
    rw [ofAttribute, hkey]
    exact (Meaning.Denotes.resource family name).ofValue_eq

theorem selfContained_gap :
    (ofAttribute ⟨"app:gap", "@dimen/gap_2"⟩).meaning = .code (.resource .dimen "gap_2") ∧
      Dimension.read? "@dimen/gap_2" = some (.resource "gap_2") ∧
      Text.startsWith "tools:" "app:gap" = false ∧ Resource.IsName "gap_2" ∧
      SelfContained (ofAttribute ⟨"app:gap", "@dimen/gap_2"⟩).value ∧
      SelfContained (Dimension.resource "gap_2").code := by
  have hkey : Text.startsWith "tools:" "app:gap" = false := by decide
  have hname : Resource.IsName "gap_2" := ⟨by decide, by decide⟩
  have hread : Dimension.read? "@dimen/gap_2" = some (.resource "gap_2") := rfl
  obtain ⟨hexpr, hdimension, href⟩ := selfContained_value_iff "@dimen/gap_2"
  obtain ⟨hmeaning, hgap⟩ := href .dimen "gap_2" rfl
  -- No other family and name make the same value.
  have honly : ∀ (family : Resource) name, "@dimen/gap_2" = "@" ++ family.family ++ "/" ++ name →
      SelfContained ("(" ++ name ++ ")") := by
    intro family name hvalue
    cases (hmeaning _ hkey).symm.trans ((href family name hvalue).1 _ hkey)
    exact hgap hname
  exact ⟨hmeaning _ hkey, hread, hkey, hname, (hexpr _ _ (hmeaning _ hkey)).mpr honly,
    (hdimension _ hread).mpr (honly .dimen)⟩

/-- A stray bracket in a name closes the call too early, and the value is an expression still. -/
theorem value_strayBracket :
    (ofAttribute ⟨"android:text", "@string/a)"⟩).meaning = .code (.resource .string "a)") ∧
      ¬ SelfContained (ofAttribute ⟨"android:text", "@string/a)"⟩).value :=
  ⟨rfl, by decide⟩

end Property

end LayoutCompose
