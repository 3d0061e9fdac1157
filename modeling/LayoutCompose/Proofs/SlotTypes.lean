import LayoutCompose.Proofs.BalancedCode
import LayoutCompose.Proofs.BlockComments
import LayoutCompose.Proofs.StringLiterals

/-!
# Code where a text or a colour is wanted

A value that has an expression is written as that expression, whether a text or a colour is wanted
there. All other values are quoted or left as something to do. So the code is a string or a colour
exactly if the expression happens to be one and nothing in the value breaks the literal, the
comment or the name that it is written into.
-/

namespace LayoutCompose

open Text (IsWord)

-- ---------------------------------------------------------------------------
-- String literals
-- ---------------------------------------------------------------------------

def Number.isHexDigit (c : Char) : Bool := (hexDigit? c).isSome

namespace Literal

open Number (isHexDigit)

def escapes : List Char := ['t', 'b', 'n', 'r', '\x27', '"', '\\', '$', 'u']

/-- The parts of a literal between its quotes. A dollar sign that no backslash escapes would begin
a template, and an escaped code point has four digits. -/
structure IsInner (ps : List Part) : Prop where
  plain : ∀ c ∈ ['"', '$', '\n', '\r'], .plain c ∉ ps
  escape : ∀ c, .escape c ∈ ps → c ∈ escapes
  whole : .cut ∉ ps
  codePoint : ∀ rest, .escape 'u' :: rest <:+ ps →
    4 ≤ rest.length ∧ ∀ p ∈ rest.take 4, ∃ c, p = .plain c ∧ isHexDigit c = true

def IsLiteral (text : String) : Prop :=
  ∃ inner, text.toList = '"' :: inner ++ ['"'] ∧ IsInner (parts inner)

/-- A text that quoting makes a literal: no backslash exposes a dollar sign or a line break, and
code points have their digits. -/
structure Quotable (raw : String) : Prop where
  escape : ∀ c ∈ ['$', '\n', '\r'], .escape c ∉ parts raw.toList
  codePoint : ∀ rest, .escape 'u' :: rest <:+ parts raw.toList →
    4 ≤ rest.length ∧ ∀ p ∈ rest.take 4, ∃ c, (p = .plain c ∨ p = .escape c) ∧ isHexDigit c = true

theorem exists_hexDigit_quoted_iff (p : Part) :
    (∃ c, p.quoted = .plain c ∧ isHexDigit c = true) ↔
      ∃ c, (p = .plain c ∨ p = .escape c) ∧ isHexDigit c = true := by
  have hspecial : ∀ c ∈ ['"', '$', '\n', '\r', 'n', 't', '\\', 'u'], isHexDigit c = false := by
    decide
  constructor
  · rintro ⟨c, hquoted, hc⟩
    rcases quoted_eq_plain hquoted with ⟨rfl, -⟩ | ⟨rfl, -⟩
    · exact ⟨c, .inl rfl, hc⟩
    · exact ⟨c, .inr rfl, hc⟩
  · rintro ⟨c, hp, hc⟩
    refine ⟨c, ?_, hc⟩
    have hne : c ∉ ['"', '$', '\n', '\r', 'n', 't', '\\', 'u'] := by
      intro hmem
      rw [hspecial c hmem] at hc
      cases hc
    rcases hp with rfl | rfl
    · unfold Part.quoted
      split <;> simp_all
    · unfold Part.quoted
      split <;> simp_all

theorem quoted_eq_codePoint_iff (p : Part) : p.quoted = .escape 'u' ↔ p = .escape 'u' := by
  constructor
  · intro h
    unfold Part.quoted at h
    split at h <;> simp_all
  · rintro rfl
    rfl

theorem codePoint_suffix_body_iff (l : List Char) :
    .escape 'u' :: rest <:+ parts (body l) ↔
      ∃ more, .escape 'u' :: more <:+ parts l ∧ rest = more.map Part.quoted := by
  rw [parts_body, List.suffix_map_iff]
  constructor
  · rintro ⟨ps, hps, heq⟩
    obtain ⟨p, more, rfl, hp, hmore⟩ := List.map_eq_cons_iff.mp heq.symm
    obtain rfl := (quoted_eq_codePoint_iff p).mp hp
    exact ⟨more, hps, hmore.symm⟩
  · rintro ⟨more, hmore, rfl⟩
    exact ⟨_, hmore, rfl⟩

theorem isLiteral_quote_iff (raw : String) : IsLiteral (quote raw) ↔ Quotable raw := by
  have htext : (quote raw).toList = '"' :: body raw.toList ++ ['"'] := String.toList_ofList
  have hinner : IsLiteral (quote raw) ↔ IsInner (parts (body raw.toList)) := by
    simp [IsLiteral, htext]
  rw [hinner]
  constructor
  · intro h
    refine ⟨fun c hc hescape => ?_, fun more hmore => ?_⟩
    · exact h.plain c (List.mem_cons_of_mem _ hc) ((plain_mem_body_iff hc _).mpr hescape)
    · have hpoint := h.codePoint _ ((codePoint_suffix_body_iff _).mpr ⟨more, hmore, rfl⟩)
      simp only [List.length_map, ← List.map_take, List.forall_mem_map,
        exists_hexDigit_quoted_iff] at hpoint
      exact hpoint
  · intro h
    refine ⟨fun c hc hplain => ?_, fun c hescape => ?_, cut_not_mem_body _, fun rest hrest => ?_⟩
    · rcases List.mem_cons.mp hc with rfl | hc
      · exact quote_not_mem_body _ hplain
      · exact h.escape c hc ((plain_mem_body_iff hc _).mp hplain)
    · rw [parts_body] at hescape
      obtain ⟨p, -, hp⟩ := List.mem_map.mp hescape
      have hsubset : ∀ c ∈ ['"', '$', 'n', 'r', 't', '\\', 'u'], c ∈ escapes := by decide
      exact hsubset c (quoted_eq_escape hp)
    · obtain ⟨more, hmore, rfl⟩ := (codePoint_suffix_body_iff _).mp hrest
      simp only [List.length_map, ← List.map_take, List.forall_mem_map, exists_hexDigit_quoted_iff]
      exact h.codePoint more hmore

theorem isLiteral_empty : IsLiteral "\"\"" := by
  refine ⟨[], by decide, ?_⟩
  constructor <;> simp [parts]

end Literal

-- ---------------------------------------------------------------------------
-- Comments
-- ---------------------------------------------------------------------------

namespace Comment

theorem afterEnd?_suffix (h : afterEnd? depth l = some rest) : '*' :: '/' :: rest <:+ l := by
  fun_induction afterEnd? depth l with
  | case1 => cases h
  | case2 depth inner ih => exact (ih h).trans (List.suffix_append ['/', '*'] inner)
  | case3 inner =>
    cases h
    exact List.suffix_rfl
  | case4 depth inner _ ih => exact (ih h).trans (List.suffix_append ['*', '/'] inner)
  | case5 depth c inner _ _ ih => exact (ih h).trans (List.suffix_cons c inner)

theorem IsBlock.exists_eq (h : IsBlock text) : ∃ before, text.toList = before ++ ['/'] := by
  unfold IsBlock afterBlock? at h
  split at h
  case h_1 inner htext =>
    obtain ⟨before, rfl⟩ := afterEnd?_suffix h
    exact ⟨'/' :: '*' :: before ++ ['*'], by simp [htext]⟩
  case h_2 => cases h

theorem exists_todo_eq (task : String) : ∃ before, (todo task).toList = before ++ ['/'] := by
  have hend : " */".toList = [' ', '*'] ++ ['/'] := by decide
  rw [todo, String.toList_append, hend, ← List.append_assoc]
  exact ⟨_, rfl⟩

/-- No comment begins where a text without slashes goes on. -/
theorem opens_append_iff (h : '/' ∉ lead) : Opens (lead ++ l) ↔ Opens l := by
  induction lead with
  | nil => rfl
  | cons c lead ih =>
    rw [List.mem_cons, not_or] at h
    rw [List.cons_append, Opens, pair_infix_cons]
    exact (or_iff_right fun hc => h.1 hc.1.symm).trans (ih h.2)

theorem isBlock_todo_iff {lead value : String} (h : '/' ∉ lead.toList) :
    IsBlock (todo (lead ++ value)) ↔ ¬ Opens value.toList := by
  rw [(todo_cases _).1, String.toList_append, opens_append_iff h]

end Comment

-- ---------------------------------------------------------------------------
-- Strings
-- ---------------------------------------------------------------------------

def Resource.IsName (name : String) : Prop :=
  name ≠ "" ∧ ∀ c ∈ name.toList, isNameChar c = true

inductive IsStringCode : String → Prop where
  | literal (h : Literal.IsLiteral text) : IsStringCode text
  | noted (h : Literal.IsLiteral text) (hcomment : Comment.IsBlock comment) :
      IsStringCode (text ++ " " ++ comment)
  | resource (h : Resource.IsName name) : IsStringCode ("stringResource(R.string." ++ name ++ ")")

theorem Literal.IsLiteral.head? (h : IsLiteral text) : text.toList.head? = some '"' := by
  obtain ⟨inner, htext, -⟩ := h
  rw [htext]
  rfl

theorem isStringCode_quote_iff (raw : String) :
    IsStringCode (Literal.quote raw) ↔ Literal.Quotable raw := by
  rw [← Literal.isLiteral_quote_iff]
  refine ⟨fun h => ?_, .literal⟩
  have htext : (Literal.quote raw).toList = '"' :: Literal.body raw.toList ++ ['"'] :=
    String.toList_ofList
  generalize Literal.quote raw = code at h htext
  cases h with
  | literal h => exact h
  | noted _ hcomment =>
    obtain ⟨before, hbefore⟩ := hcomment.exists_eq
    rw [String.toList_append, hbefore, ← List.append_assoc] at htext
    have hlast := (List.append_inj' htext rfl).2
    simp at hlast
  | resource => simp at htext

theorem isStringCode_todo_iff (task : String) :
    IsStringCode ("\"\" " ++ Comment.todo task) ↔ Comment.IsBlock (Comment.todo task) := by
  refine ⟨fun h => ?_, .noted Literal.isLiteral_empty⟩
  have htext : ("\"\" " ++ Comment.todo task).toList =
      '"' :: '"' :: ' ' :: (Comment.todo task).toList := by simp
  generalize "\"\" " ++ Comment.todo task = code at h htext
  cases h with
  | literal h =>
    obtain ⟨inner, hinner, -⟩ := h
    obtain ⟨before, hbefore⟩ := Comment.exists_todo_eq task
    rw [hinner, hbefore, ← List.cons_append, ← List.cons_append, ← List.cons_append] at htext
    have hlast := (List.append_inj' htext rfl).2
    simp at hlast
  | @noted text comment h hcomment =>
    obtain ⟨inner, hinner, hparts⟩ := h
    simp only [String.toList_append, hinner] at htext
    cases inner with
    | nil =>
      obtain rfl : comment = Comment.todo task := String.toList_inj.mp (by simpa using htext)
      exact hcomment
    | cons c rest =>
      -- a quote would end the literal before the comment
      obtain rfl : c = '"' := by simp at htext; exact htext.1
      rw [Literal.parts_cons_of_ne (by decide)] at hparts
      exact (hparts.plain '"' (by decide) List.mem_cons_self).elim
  | resource => simp at htext

theorem Text.head?_append_of_head? (lead rest : String) (h : lead.toList.head? = some c) :
    (lead ++ rest).toList.head? = some c := by
  rw [String.toList_append, List.head?_append, h]
  rfl

theorem IsStringCode.cases_head? (h : IsStringCode text) :
    text.toList.head? = some '"' ∨
      ∃ name, text = "stringResource(R.string." ++ name ++ ")" ∧ Resource.IsName name := by
  cases h with
  | literal h => exact .inl h.head?
  | noted h _ =>
    rw [String.append_assoc]
    exact .inl (Text.head?_append_of_head? _ _ h.head?)
  | resource h => exact .inr ⟨_, rfl, h⟩

def Resource.initial : Resource → Char
  | string => 's'
  | color => 'c'
  | dimen => 'd'
  | drawable | mipmap => 'p'

theorem Resource.eq_of_initial {family other : Resource} (hfamily : family ∈ [string, color])
    (h : family.initial = other.initial) : other = family := by
  revert hfamily h
  cases family <;> cases other <;> decide

namespace Expr

open Text (head?_append_of_head?)

def mayBegin : Expr → Char → Bool
  | resource family _, c => c == family.initial
  | argb _, c | namedColor _, c => c == 'C'
  | themeColor _, c => c == 'M'
  | dp _, c => c.isDigit || c == '.'

theorem head?_resource_code (family : Resource) (name : String) :
    (resource family name).code.toList.head? = some family.initial := by
  change (family.accessor ++ "(R." ++ family.family ++ "." ++ name ++ ")").toList.head? = _
  simp only [String.append_assoc]
  refine head?_append_of_head? _ _ ?_
  cases family <;> decide

theorem mayBegin_of_head? {expr : Expr} (h : expr.code.toList.head? = some c) :
    expr.mayBegin c = true := by
  have hinitial : ∀ {d}, expr.code.toList.head? = some d → (c == d) = true :=
    fun hd => beq_iff_eq.mpr (Option.some.inj (h.symm.trans hd))
  cases expr with
  | resource family name => exact hinitial (head?_resource_code family name)
  | argb color =>
    refine hinitial ?_
    change ("Color(0x" ++ String.ofList _ ++ ")").toList.head? = _
    rw [String.append_assoc]
    exact head?_append_of_head? _ _ (by decide)
  | namedColor name => exact hinitial (head?_append_of_head? "Color." name (by decide))
  | themeColor role =>
    exact hinitial (head?_append_of_head? "MaterialTheme.colorScheme." role (by decide))
  | dp n =>
    change (toString n ++ ".dp").toList.head? = some c at h
    rw [String.toList_append, List.head?_append, Option.or_eq_some_iff] at h
    rw [mayBegin, Bool.or_eq_true]
    rcases h with hdigit | ⟨-, hdot⟩
    · exact .inl (Number.isDigit_of_mem_nat (List.mem_of_head? hdigit))
    · exact .inr (beq_iff_eq.mpr (Option.some.inj hdot).symm)

/-- Only a string or a colour resource is written as one. -/
theorem eq_resource_of_code {expr : Expr} (hfamily : family ∈ [Resource.string, Resource.color])
    (h : expr.code = (resource family name).code) : expr = .resource family name := by
  have hbegin : expr.mayBegin family.initial = true :=
    mayBegin_of_head? (h ▸ head?_resource_code family name)
  cases expr with
  | resource other own =>
    obtain rfl := Resource.eq_of_initial hfamily (beq_iff_eq.mp hbegin)
    change other.accessor ++ "(R." ++ other.family ++ "." ++ own ++ ")" =
      other.accessor ++ "(R." ++ other.family ++ "." ++ name ++ ")" at h
    rw [String.append_left_inj, String.append_right_inj] at h
    rw [h]
  | _ =>
    simp only [List.mem_cons, List.not_mem_nil, or_false] at hfamily
    rcases hfamily with rfl | rfl <;> cases hbegin

theorem not_mayBegin_quote (expr : Expr) : expr.mayBegin '"' = false := by
  cases expr with
  | resource family => cases family <;> rfl
  | _ => rfl

theorem isColor_of_mayBegin {expr : Expr} (hc : c ∈ ['C', 'M']) (h : expr.mayBegin c = true) :
    expr.isColor = true ∧ ∀ family name, expr ≠ .resource family name := by
  simp only [List.mem_cons, List.not_mem_nil, or_false] at hc
  cases expr with
  | resource family => rcases hc with rfl | rfl <;> cases family <;> cases h
  | dp => rcases hc with rfl | rfl <;> cases h
  | _ => exact ⟨rfl, nofun⟩

end Expr

theorem isStringCode_code_iff (expr : Expr) :
    IsStringCode expr.code ↔ ∃ name, expr = .resource .string name ∧ Resource.IsName name := by
  constructor
  · intro h
    rcases h.cases_head? with hquote | ⟨name, hcode, hname⟩
    · have hbegin := Expr.mayBegin_of_head? hquote
      rw [expr.not_mayBegin_quote] at hbegin
      cases hbegin
    · exact ⟨name, Expr.eq_resource_of_code (by decide) hcode, hname⟩
  · rintro ⟨name, rfl, hname⟩
    exact .resource hname

-- ---------------------------------------------------------------------------
-- Colours
-- ---------------------------------------------------------------------------

inductive IsColorCode : String → Prop where
  | value (h : digits.toList.length = 8)
      (hdigits : ∀ c ∈ digits.toList, Number.isHexDigit c = true) :
      IsColorCode ("Color(0x" ++ digits ++ ")")
  | constant (h : IsWord name) : IsColorCode ("Color." ++ name)
  | noted (h : IsWord name) (hcomment : Comment.IsBlock comment) :
      IsColorCode ("Color." ++ name ++ " " ++ comment)
  | resource (h : Resource.IsName name) : IsColorCode ("colorResource(R.color." ++ name ++ ")")
  | theme (h : IsWord role) : IsColorCode ("MaterialTheme.colorScheme." ++ role)

theorem Text.IsWord.space_not_mem (h : IsWord text) : ' ' ∉ text.toList :=
  fun hspace => absurd (h.2 ' ' hspace) (by decide)

theorem Text.IsWord.dropWhile_append (h : IsWord word) (rest : List Char) :
    (word.toList ++ ' ' :: rest).dropWhile (· != ' ') = ' ' :: rest := by
  rw [List.dropWhile_append_of_pos]
  · rfl
  · intro c hc
    exact bne_iff_ne.mpr fun hspace => h.space_not_mem (hspace ▸ hc)

theorem isColorCode_todo_iff (task : String) :
    IsColorCode ("Color.Unspecified " ++ Comment.todo task) ↔
      Comment.IsBlock (Comment.todo task) := by
  have hword : IsWord "Unspecified" := Text.isWord_ofList (by decide)
  refine ⟨fun h => ?_, .noted hword⟩
  have htext : ("Color.Unspecified " ++ Comment.todo task).toList =
      "Color.".toList ++ ("Unspecified".toList ++ ' ' :: (Comment.todo task).toList) := by simp
  generalize "Color.Unspecified " ++ Comment.todo task = code at h htext
  cases h with
  | value => simp at htext
  | @constant name hname =>
    rw [String.toList_append, List.append_cancel_left_eq] at htext
    exact (hname.space_not_mem (htext ▸ by simp)).elim
  | @noted name comment hname hcomment =>
    have hnamed : name.toList ++ ' ' :: comment.toList =
        "Unspecified".toList ++ ' ' :: (Comment.todo task).toList := by
      simpa [String.toList_append] using htext
    have hsame := congrArg (List.dropWhile (· != ' ')) hnamed
    rw [hname.dropWhile_append, hword.dropWhile_append] at hsame
    obtain rfl : comment = Comment.todo task := String.toList_inj.mp (List.cons.inj hsame).2
    exact hcomment
  | resource => simp at htext
  | theme => simp at htext

theorem IsColorCode.cases_head? (h : IsColorCode text) :
    (∃ c ∈ ['C', 'M'], text.toList.head? = some c) ∨
      ∃ name, text = "colorResource(R.color." ++ name ++ ")" ∧ Resource.IsName name := by
  cases h with
  | resource h => exact .inr ⟨_, rfl, h⟩
  | _ => simp

theorem Expr.IsClosed.isColorCode {expr : Expr} (h : expr.IsClosed) (hcolor : expr.isColor = true) :
    IsColorCode expr.code := by
  have hvalue : ∀ color : Argb, IsColorCode color.code := by
    intro color
    refine .value (by rw [String.toList_ofList]; rfl) fun c hc => ?_
    rw [String.toList_ofList] at hc
    obtain ⟨d, rfl⟩ := Argb.exists_hexDigit_of_mem hc
    rw [Number.isHexDigit, Number.hexDigit?_hexDigit]
    rfl
  rcases h with ⟨color, rfl⟩ | htabled
  · exact hvalue color
  have hword := isAlpha_word htabled
  cases expr with
  | resource family name => exact (ne_resource htabled family name rfl).elim
  | argb color => exact hvalue color
  | namedColor name =>
    refine .constant ⟨fun hnil => ?_, hword⟩
    obtain rfl := String.toList_eq_nil_iff.mp hnil
    exact absurd htabled (by decide)
  | themeColor role =>
    refine .theme ⟨fun hnil => ?_, hword⟩
    obtain rfl := String.toList_eq_nil_iff.mp hnil
    exact absurd htabled (by decide)
  | dp n => cases hcolor

theorem isColorCode_code_iff {expr : Expr} (h : Meaning.Denotes value expr) :
    IsColorCode expr.code ↔
      expr.isColor = true ∧ ∀ name, expr = .resource .color name → Resource.IsName name := by
  constructor
  · intro hcode
    rcases hcode.cases_head? with ⟨c, hc, hhead⟩ | ⟨name, hcode, hname⟩
    · obtain ⟨hcolor, hne⟩ := Expr.isColor_of_mayBegin hc (Expr.mayBegin_of_head? hhead)
      exact ⟨hcolor, fun name heq => (hne _ _ heq).elim⟩
    · obtain rfl : expr = .resource .color name := Expr.eq_resource_of_code (by decide) hcode
      refine ⟨rfl, fun own heq => ?_⟩
      cases heq
      exact hname
  · rintro ⟨hcolor, hname⟩
    rcases Meaning.ofValue_eq_code h.ofValue_eq with ⟨family, name, rfl, -⟩ | hclosed
    · obtain rfl : family = .color := by simpa [Expr.isColor] using hcolor
      exact .resource (hname name rfl)
    · exact hclosed.isColorCode hcolor

-- ---------------------------------------------------------------------------
-- Properties
-- ---------------------------------------------------------------------------

theorem Comment.isBlock_todo_quoted_iff (value : String) :
    IsBlock (todo ("color \"" ++ value ++ "\"")) ↔ ¬ Opens value.toList := by
  have hquote : Opens (value.toList ++ ['"']) ↔ Opens value.toList := by
    rw [Opens, pair_infix_append_cons (by decide)]
    simp [Opens]
  rw [String.append_assoc, isBlock_todo_iff (by decide), String.toList_append]
  exact hquote.not

namespace Property

section
variable {p : Property} (h : p.meaning = .ofValue p.raw)
include h

theorem denotes_iff (expr : Expr) : Meaning.Denotes p.raw expr ↔ p.meaning = .code expr := by
  rw [h, Meaning.ofValue_eq_code_iff]

theorem isStringCode_textCode_iff :
    IsStringCode p.textCode ↔
      (∃ name, p.raw = "@string/" ++ name ∧ Resource.IsName name) ∨
      (Meaning.IsPlain p.raw ∧ Literal.Quotable p.raw) ∨
      (¬ Meaning.IsPlain p.raw ∧ (∀ expr, ¬ Meaning.Denotes p.raw expr) ∧
        ¬ Comment.Opens p.raw.toList) := by
  have hdenotes := denotes_iff h
  have hstring : ∀ name, p.raw = "@string/" ++ name ↔
      p.meaning = .code (.resource .string name) := by
    intro name
    rw [← hdenotes, Meaning.denotes_resource_iff]
    rfl
  have hsuits : Meaning.Suits p.raw p.meaning := h ▸ Meaning.suits_ofValue p.raw
  rw [textCode]
  generalize p.meaning = meaning at hdenotes hstring hsuits
  cases hsuits with
  | literal hplain => simp [isStringCode_quote_iff, hstring, hplain]
  | code hcode => simp [isStringCode_code_iff, hstring, hdenotes, hcode.not_isPlain]
  | unresolved hlead hplain =>
    have hslash := (Meaning.not_mem_taskLead hlead).1
    simp [isStringCode_todo_iff, Comment.isBlock_todo_iff hslash, hstring, hdenotes, hplain]

theorem isColorCode_colorCode_iff :
    IsColorCode p.colorCode ↔
      (∃ expr, Meaning.Denotes p.raw expr ∧ expr.isColor = true ∧
        ∀ name, expr = .resource .color name → Resource.IsName name) ∨
      ((∀ expr, ¬ Meaning.Denotes p.raw expr) ∧ ¬ Comment.Opens p.raw.toList) := by
  have hdenotes := denotes_iff h
  have hsuits : Meaning.Suits p.raw p.meaning := h ▸ Meaning.suits_ofValue p.raw
  rw [colorCode]
  generalize p.meaning = meaning at hdenotes hsuits
  cases hsuits with
  | literal => simp [isColorCode_todo_iff, Comment.isBlock_todo_quoted_iff, hdenotes]
  | code hcode => simp [isColorCode_code_iff hcode, hdenotes]
  | unresolved hlead =>
    have hslash := (Meaning.not_mem_taskLead hlead).1
    simp [isColorCode_todo_iff, Comment.isBlock_todo_iff hslash, hdenotes]

end

/-- Where a text is wanted the code is a string exactly for a string resource, for a plain text that
can be quoted, and for a value that has no expression and begins no comment. Where a colour is
wanted it is a colour exactly for an expression that is one, and for a value that has no expression
and begins no comment. -/
theorem slotCode_iff (a : Attribute) (h : Text.startsWith "tools:" a.name = false) :
    (IsStringCode (ofAttribute a).textCode ↔
      (∃ name, a.value = "@string/" ++ name ∧ Resource.IsName name) ∨
      (Meaning.IsPlain a.value ∧ Literal.Quotable a.value) ∨
      (¬ Meaning.IsPlain a.value ∧ (∀ expr, ¬ Meaning.Denotes a.value expr) ∧
        ¬ Comment.Opens a.value.toList)) ∧
    (IsColorCode (ofAttribute a).colorCode ↔
      (∃ expr, Meaning.Denotes a.value expr ∧ expr.isColor = true ∧
        ∀ name, expr = .resource .color name → Resource.IsName name) ∨
      ((∀ expr, ¬ Meaning.Denotes a.value expr) ∧ ¬ Comment.Opens a.value.toList)) := by
  rw [Text.startsWith_eq, Option.isSome_eq_false_iff, Option.isNone_iff_eq_none] at h
  have hraw : (ofAttribute a).raw = a.value := by rw [ofAttribute, h]
  have hmeaning : (ofAttribute a).meaning = .ofValue (ofAttribute a).raw := by
    rw [ofAttribute, h]
  exact hraw ▸ ⟨isStringCode_textCode_iff hmeaning, isColorCode_colorCode_iff hmeaning⟩

/-- A word after a hash sign is a string for the text, and a colour of the theme is a colour. -/
theorem slotCode_topic :
    Text.startsWith "tools:" "android:text" = false ∧
      IsStringCode (ofAttribute ⟨"android:text", "#topic"⟩).textCode ∧
      IsColorCode (ofAttribute ⟨"android:text", "?attr/colorError"⟩).colorCode ∧
      ¬ IsColorCode (ofAttribute ⟨"android:text", "@string/title"⟩).colorCode := by
  have hname : Text.startsWith "tools:" "android:text" = false := by decide
  refine ⟨hname, ?_, ?_, fun h => ?_⟩
  · refine (slotCode_iff ⟨"android:text", "#topic"⟩ hname).1.mpr
      (.inr (.inr ⟨?_, fun expr hdenotes => ?_, ?_⟩))
    · exact fun hplain => hplain '#' (by decide) (by decide)
    · cases hdenotes.ofValue_eq
    · exact Comment.not_opens_of_not_mem (by decide)
  · have hdenotes : Meaning.Denotes "?attr/colorError" (.themeColor "error") :=
      Meaning.ofValue_eq_code_iff.mp rfl
    exact (slotCode_iff ⟨"android:text", "?attr/colorError"⟩ hname).2.mpr
      (.inl ⟨_, hdenotes, rfl, nofun⟩)
  · have htitle : Meaning.Denotes "@string/title" (.resource .string "title") :=
      .resource .string "title"
    rcases (slotCode_iff ⟨"android:text", "@string/title"⟩ hname).2.mp h with
      ⟨expr, hdenotes, hcolor, -⟩ | ⟨hnone, -⟩
    · cases hdenotes.ofValue_eq.symm.trans htitle.ofValue_eq
      cases hcolor
    · exact hnone _ htitle

/-- A text that reads like a colour is written as one. -/
theorem textCode_cafe_not_string :
    ¬ IsStringCode (ofAttribute ⟨"android:text", "#cafe"⟩).textCode := by
  intro h
  have hmeaning : (ofAttribute ⟨"android:text", "#cafe"⟩).meaning =
      .code (.argb ⟨.double 12, .double 10, .double 15, .double 14⟩) := rfl
  rw [textCode, hmeaning] at h
  obtain ⟨name, heq, -⟩ := (isStringCode_code_iff _).mp h
  cases heq

end Property

end LayoutCompose
