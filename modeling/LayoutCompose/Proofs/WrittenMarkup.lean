import LayoutCompose.Layout.Document
import Mathlib.Data.List.TakeWhile
import LayoutCompose.Proofs.Rendering

/-!
# Written markup and the reader

How the reader takes each piece of a written layout: where the piece ends, which event it
is, and which element a start tag describes. Every lemma leaves open what follows the piece.
-/

namespace LayoutCompose.Markup

-- ---------------------------------------------------------------------------
-- Names
-- ---------------------------------------------------------------------------

theorem ne_of_isNameChar (h : isNameChar c = true) (hd : isNameChar d = false) : c ≠ d := by
  rintro rfl
  simp [h] at hd

theorem isSpace_of_isNameChar (h : isNameChar c = true) : isSpace c = false := by
  simp [isSpace, ne_of_isNameChar h (d := ' ') (by decide),
    ne_of_isNameChar h (d := '\t') (by decide), ne_of_isNameChar h (d := '\r') (by decide),
    ne_of_isNameChar h (d := '\n') (by decide)]

theorem isNameChar_of_mem (h : isName cs = true) (hc : c ∈ cs) : isNameChar c = true := by
  cases cs with
  | nil => cases hc
  | cons first rest =>
    simp only [isName, Bool.and_eq_true, List.all_eq_true] at h
    rcases List.mem_cons.mp hc with rfl | hc
    · simp [isNameChar, h.1]
    · exact h.2 c hc

theorem exists_cons_of_isName (h : isName cs = true) :
    ∃ first rest, cs = first :: rest ∧ isNameChar first = true := by
  cases cs with
  | nil => cases h
  | cons first rest => exact ⟨first, rest, rfl, isNameChar_of_mem h (by simp)⟩

theorem not_mem_of_isName (h : isName cs = true) (hd : isNameChar d = false) : d ∉ cs :=
  fun hm => ne_of_isNameChar (isNameChar_of_mem h hm) hd rfl

-- ---------------------------------------------------------------------------
-- Where markup ends
-- ---------------------------------------------------------------------------

namespace Ending

theorem splitFrom_of_open {ending : Ending σ} {state : σ} {read : List Char}
    (hopen : ∀ before after, content = before ++ '>' :: after →
      ending.closes (before.foldl ending.step state) = false)
    (hlast : ending.closes (content.foldl ending.step state) = true) :
    ending.splitFrom state read (content ++ '>' :: rest) = some (read.reverse ++ content, rest) := by
  induction content generalizing state read with
  | nil =>
    simp only [List.foldl_nil] at hlast
    simp [splitFrom, hlast]
  | cons c cs ih =>
    have hc : (c == '>' && ending.closes state) = false := by
      by_cases h : c = '>'
      · subst h
        simpa using hopen [] cs rfl
      · simp [h]
    rw [List.cons_append, splitFrom, hc]
    simp only [Bool.false_eq_true, if_false]
    rw [ih (fun before after h => by simpa using hopen (c :: before) after (by simp [h])) hlast]
    simp

/-- Markup ends at the first `>` that its content leaves room for. -/
theorem split_of_open {ending : Ending σ}
    (hopen : ∀ before after, content = before ++ '>' :: after →
      ending.closes (before.foldl ending.step ending.start) = false)
    (hlast : ending.closes (content.foldl ending.step ending.start) = true) :
    ending.split (content ++ '>' :: rest) = some (content, rest) := by
  rw [split, splitFrom_of_open hopen hlast, List.reverse_nil, List.nil_append]

theorem split_of_not_mem {ending : Ending σ} (hmem : '>' ∉ content)
    (hlast : ending.closes (content.foldl ending.step ending.start) = true) :
    ending.split (content ++ '>' :: rest) = some (content, rest) :=
  split_of_open (fun before after h => absurd (by simp [h]) hmem) hlast

/-- The run of one character at the end of a text, as the states of comments and of
character data count it. -/
def trailing (mark : Char) (cs : List Char) : Nat :=
  cs.foldl (fun n c => if c == mark then n + 1 else 0) 0

theorem trailing_concat (mark c : Char) (cs : List Char) :
    trailing mark (cs ++ [c]) = if c == mark then trailing mark cs + 1 else 0 := by
  simp [trailing]

theorem trailing_append_two (mark : Char) (cs : List Char) :
    trailing mark (cs ++ [mark, mark]) = trailing mark cs + 2 := by
  simp [trailing]

theorem two_le_trailing (h : 2 ≤ trailing mark cs) : [mark, mark] <:+ cs := by
  rcases List.eq_nil_or_concat cs with rfl | ⟨cs, c, rfl⟩
  · simp [trailing] at h
  rcases List.eq_nil_or_concat cs with rfl | ⟨cs, d, rfl⟩
  · simp only [List.concat_eq_append, trailing_concat] at h
    split at h <;> simp [trailing] at h
  · simp only [List.concat_eq_append, trailing_concat, beq_iff_eq] at h ⊢
    split at h
    · rename_i hc
      split at h
      · rename_i hd
        exact ⟨cs, by simp [hc, hd]⟩
      · omega
    · omega

theorem comment_foldl (cs : List Char) :
    cs.foldl comment.step comment.start = (cs.length, trailing '-' cs) := by
  have h : ∀ count dashes, cs.foldl comment.step (count, dashes) =
      (count + cs.length, cs.foldl (fun n c => if c == '-' then n + 1 else 0) dashes) := by
    induction cs with
    | nil => simp
    | cons c cs ih =>
      intro count dashes
      simp only [List.foldl_cons, List.length_cons]
      rw [← Nat.add_assoc, Nat.add_right_comm]
      exact ih _ _
  rw [trailing, ← Nat.zero_add cs.length]
  exact h 0 0

theorem characterData_foldl (cs : List Char) :
    cs.foldl characterData.step characterData.start = trailing ']' cs := rfl

/-- The tag is outside quotes again once a part without quotes is read. -/
theorem tag_foldl_plain {cs : List Char} (h : ∀ c ∈ cs, c ≠ '"' ∧ c ≠ '\x27') :
    cs.foldl tag.step none = none := by
  induction cs with
  | nil => rfl
  | cons c cs ih =>
    have hc := h c (by simp)
    rw [List.foldl_cons]
    simpa [tag, hc.1, hc.2] using ih fun d hd => h d (by simp [hd])

theorem tag_foldl_quoted {cs : List Char} (h : quote ∉ cs) :
    cs.foldl tag.step (some quote) = some quote := by
  induction cs with
  | nil => rfl
  | cons c cs ih =>
    simp only [List.mem_cons, not_or] at h
    rw [List.foldl_cons]
    simpa [tag, Ne.symm h.1] using ih h.2

end Ending

-- ---------------------------------------------------------------------------
-- The text of a start tag
-- ---------------------------------------------------------------------------

theorem Spaces.not_mem (h : Spaces cs) (hc : isSpace c = false) : c ∉ cs := by
  intro hm
  simp [h c hm] at hc

theorem Spaces.ne_quotes (h : Spaces cs) (hc : c ∈ cs) : c ≠ '"' ∧ c ≠ '\x27' :=
  ⟨fun e => h.not_mem (by decide) (e ▸ hc), fun e => h.not_mem (by decide) (e ▸ hc)⟩

theorem ne_quotes_of_isName (h : isName cs = true) (hc : c ∈ cs) : c ≠ '"' ∧ c ≠ '\x27' :=
  ⟨ne_of_isNameChar (isNameChar_of_mem h hc) (by decide),
    ne_of_isNameChar (isNameChar_of_mem h hc) (by decide)⟩

theorem IsQuote.isSpace_eq (h : IsQuote quote) : isSpace quote = false := by
  rcases h with rfl | rfl <;> decide

/-- A character is written as the entity that stands for it, or as it is. -/
theorem writeChar_cases (h : IsQuote quote) (c : Char) :
    (∃ name, writeChar quote c = '&' :: name ++ [';'] ∧ predefined? name = some c ∧
      ∀ d ∈ name, d.isLower = true) ∨
    (writeChar quote c = [c] ∧ c ≠ '&' ∧ c ≠ '>' ∧ c ≠ quote) := by
  by_cases hamp : c = '&'
  · subst hamp
    exact .inl ⟨['a', 'm', 'p'], rfl, rfl, List.all_eq_true.mp (by decide)⟩
  by_cases hlt : c = '<'
  · subst hlt
    exact .inl ⟨['l', 't'], rfl, rfl, List.all_eq_true.mp (by decide)⟩
  by_cases hgt : c = '>'
  · subst hgt
    exact .inl ⟨['g', 't'], rfl, rfl, List.all_eq_true.mp (by decide)⟩
  by_cases hq : c = quote
  · subst hq
    rcases h with rfl | rfl
    · exact .inl ⟨['q', 'u', 'o', 't'], rfl, rfl, List.all_eq_true.mp (by decide)⟩
    · exact .inl ⟨['a', 'p', 'o', 's'], rfl, rfl, List.all_eq_true.mp (by decide)⟩
  · exact .inr ⟨by simp [writeChar, hamp, hlt, hgt, hq], hamp, hgt, hq⟩

/-- Neither the quotes nor a `>` is left in a written value. -/
theorem not_mem_writeValue (h : IsQuote quote) (hc : c = quote ∨ c = '>') (value : List Char) :
    c ∉ writeValue quote value := by
  have hplain : c.isLower = false ∧ c ≠ '&' ∧ c ≠ ';' := by
    rcases h with rfl | rfl <;> rcases hc with rfl | rfl <;> decide
  simp only [writeValue, List.mem_flatMap, not_exists, not_and]
  intro d _ hm
  rcases writeChar_cases h d with ⟨name, hw, -, hlower⟩ | ⟨hw, -, hgt, hq⟩
  · rw [hw] at hm
    simp only [List.cons_append, List.mem_cons, List.mem_append, List.not_mem_nil, or_false] at hm
    rcases hm with hm | hm | hm
    · exact hplain.2.1 hm
    · simp [hlower c hm] at hplain
    · exact hplain.2.2 hm
  · rw [hw, List.mem_singleton] at hm
    subst hm
    rcases hc with hc | hc
    · exact hq hc
    · exact hgt hc

theorem WrittenAttributes.not_mem_close (h : WrittenAttributes attributes text)
    (hnames : ∀ a ∈ attributes, isName a.name.toList = true) : '>' ∉ text := by
  induction h with
  | nil hgap => exact hgap.not_mem (by decide)
  | @cons gap quote rest text a hgap hquote _ ih =>
    have hname := not_mem_of_isName (hnames a (by simp)) (d := '>') (by decide)
    have hvalue := not_mem_writeValue hquote (.inr rfl) a.value.toList
    have hq : '>' ≠ quote := by rcases hquote with rfl | rfl <;> decide
    have hg := hgap.not_mem (c := '>') (by decide)
    simp [hg, hname, hq, hvalue, ih fun b hb => hnames b (by simp [hb])]

theorem WrittenAttributes.tag_foldl (h : WrittenAttributes attributes text)
    (hnames : ∀ a ∈ attributes, isName a.name.toList = true) :
    text.foldl Ending.tag.step none = none := by
  induction h with
  | nil hgap => exact Ending.tag_foldl_plain fun c hc => hgap.ne_quotes hc
  | @cons gap quote rest text a hgap hquote _ ih =>
    have hlead : (gap ++ a.name.toList ++ ['=']).foldl Ending.tag.step none = none := by
      refine Ending.tag_foldl_plain fun c hc => ?_
      simp only [List.mem_append, List.mem_singleton] at hc
      rcases hc with (hc | hc) | rfl
      · exact hgap.ne_quotes hc
      · exact ne_quotes_of_isName (hnames a (by simp)) hc
      · decide
    have hopen : Ending.tag.step none quote = some quote := by
      rcases hquote with rfl | rfl <;> rfl
    have hclose : Ending.tag.step (some quote) quote = none := by simp [Ending.tag]
    have hvalue := Ending.tag_foldl_quoted (not_mem_writeValue hquote (.inl rfl) a.value.toList)
    calc (gap ++ a.name.toList ++ '=' :: quote :: writeValue quote a.value.toList ++ quote :: text).foldl
          Ending.tag.step none
        = (quote :: writeValue quote a.value.toList ++ quote :: text).foldl Ending.tag.step
            ((gap ++ a.name.toList ++ ['=']).foldl Ending.tag.step none) := by
          simp [List.foldl_append]
      _ = (writeValue quote a.value.toList ++ quote :: text).foldl Ending.tag.step (some quote) := by
          rw [hlead, List.cons_append, List.foldl_cons, hopen]
      _ = text.foldl Ending.tag.step none := by
          rw [List.foldl_append, hvalue, List.foldl_cons, hclose]
      _ = none := ih fun b hb => hnames b (by simp [hb])

theorem WrittenAttributes.getLast_ne (h : WrittenAttributes attributes text) :
    text.getLast? ≠ some '/' := by
  induction h with
  | nil hgap => exact fun h => hgap.not_mem (by decide) (List.mem_of_getLast? h)
  | @cons gap quote rest text a _ hquote _ ih =>
    cases text with
    | nil => rcases hquote with rfl | rfl <;> simp [List.getLast?_cons]
    | cons c text => simpa [List.getLast?_cons] using ih

namespace WrittenTag

theorem exists_cons (h : WrittenTag tag attributes content) (htag : isName tag.toList = true) :
    ∃ first rest, content = first :: rest ∧ isNameChar first = true := by
  cases h with
  | @mk text _ _ =>
    obtain ⟨first, rest, hname, hfirst⟩ := exists_cons_of_isName htag
    exact ⟨first, rest ++ text, by simp [hname], hfirst⟩

theorem not_mem_close (h : WrittenTag tag attributes content) (htag : isName tag.toList = true)
    (hnames : ∀ a ∈ attributes, isName a.name.toList = true) : '>' ∉ content := by
  cases h with
  | mk htext _ =>
    have hname := not_mem_of_isName htag (d := '>') (by decide)
    simp [hname, htext.not_mem_close hnames]

theorem tag_foldl (h : WrittenTag tag attributes content) (htag : isName tag.toList = true)
    (hnames : ∀ a ∈ attributes, isName a.name.toList = true) :
    content.foldl Ending.tag.step Ending.tag.start = none := by
  cases h with
  | mk htext _ =>
    rw [List.foldl_append, show Ending.tag.start = none from rfl,
      Ending.tag_foldl_plain fun c hc => ne_quotes_of_isName htag hc, htext.tag_foldl hnames]

theorem getLast_ne (h : WrittenTag tag attributes content) (htag : isName tag.toList = true) :
    content.getLast? ≠ some '/' := by
  cases h with
  | @mk text htext _ =>
    have hname := not_mem_of_isName htag (d := '/') (by decide)
    have hlast := htext.getLast_ne
    cases text with
    | nil => exact fun h => hname (by simpa using List.mem_of_getLast? h)
    | cons c text => simpa using hlast

theorem nameOf_eq (h : WrittenTag tag attributes content) (htag : isName tag.toList = true) :
    content.takeWhile (!isSpace ·) = tag.toList ∧
      WrittenAttributes attributes (content.dropWhile (!isSpace ·)) := by
  cases h with
  | @mk text htext hhead =>
    have hname : ∀ c ∈ tag.toList, (!isSpace c) = true := fun c hc => by
      simp [isSpace_of_isNameChar (isNameChar_of_mem htag hc)]
    rw [List.takeWhile_append_of_pos hname, List.dropWhile_append_of_pos hname]
    cases text with
    | nil => simpa using htext
    | cons c text =>
      have hc : isSpace c = true := hhead c rfl
      simpa [hc] using htext

end WrittenTag

-- ---------------------------------------------------------------------------
-- Events
-- ---------------------------------------------------------------------------

/-- A `>` within a text whose two ends have none. -/
theorem exists_of_append_eq (hl : '>' ∉ lead) (ht : '>' ∉ tail)
    (h : lead ++ middle ++ tail = before ++ '>' :: after) :
    ∃ u v, before = lead ++ u ∧ middle = u ++ '>' :: v := by
  rcases List.append_eq_append_iff.mp h with ⟨u, -, rfl⟩ | ⟨u, hu, hv⟩
  · simp at ht
  cases u with
  | nil =>
    rw [List.nil_append] at hv
    simp [← hv] at ht
  | cons c u =>
    obtain ⟨rfl, -⟩ := List.cons_eq_cons.mp hv
    rcases List.append_eq_append_iff.mp hu with ⟨w, rfl, rfl⟩ | ⟨w, rfl, hw⟩
    · exact ⟨w, u, rfl, rfl⟩
    · cases w with
      | nil => exact ⟨[], u, by simp, by simpa using hw.symm⟩
      | cons c w =>
        obtain ⟨rfl, -⟩ := List.cons_eq_cons.mp hw
        simp at hl

theorem infix_of_suffix {p u : List Char} (h : p <:+ u) (v : List Char) :
    p ++ ['>'] <:+: u ++ '>' :: v := by
  obtain ⟨w, rfl⟩ := h
  exact ⟨w, v, by simp⟩

/-- Two equal characters at the end stand after any other one. -/
theorem suffix_of_append {mark c : Char} {lead u : List Char} (hc : c ≠ mark)
    (h : [mark, mark] <:+ lead ++ c :: u) : [mark, mark] <:+ u := by
  by_cases hu : 2 ≤ u.length
  · exact List.suffix_of_suffix_length_le h ⟨lead ++ [c], by simp⟩ hu
  · have hshort := List.suffix_of_suffix_length_le (List.suffix_append lead (c :: u)) h
      (by simp only [List.length_cons, List.length_nil]; omega)
    have hmem : c ∈ [mark, mark] := hshort.subset (by simp)
    simp [hc] at hmem

namespace Reader

/-- Whatever follows, the text is read as one event. -/
def Takes (text : List Char) (event : Event) (unclosed unclosed' : List String) : Prop :=
  ∀ offset rest, ∃ offset', next ⟨offset, text ++ rest, unclosed⟩ =
    .ok (some (event, ⟨offset', rest, unclosed'⟩))

section
variable {unclosed unclosed' : List String}

theorem takes_of_readMarkup
    (h : ∀ start rest, ∃ offset', readMarkup start unclosed (cs ++ rest) =
      .ok (event, ⟨offset', rest, unclosed'⟩)) :
    Takes ('<' :: cs) event unclosed unclosed' := by
  intro offset rest
  obtain ⟨offset', h⟩ := h offset rest
  exact ⟨offset', by simp [next, isSpace, h]⟩

/-- A text that is not blank is one event, up to the next tag or to the end. -/
theorem next_of_text (hc : isSpace c = false) (htext : '<' ∉ c :: text)
    (hrest : ∀ x ∈ after.head?, x = '<') (offset : Nat) :
    ∃ offset', next ⟨offset, c :: text ++ after, unclosed⟩ =
      .ok (some (.ignored, ⟨offset', after, unclosed⟩)) := by
  simp only [List.mem_cons, not_or] at htext
  have hplain : ∀ x ∈ text, (x != '<') = true := fun x hx =>
    bne_iff_ne.mpr fun e => htext.2 (e ▸ hx)
  have hdrop : (text ++ after).dropWhile (· != '<') = after := by
    rw [List.dropWhile_append_of_pos hplain]
    cases after with
    | nil => rfl
    | cons x after => simp [hrest x rfl]
  simp [next, hc, Ne.symm htext.1, hdrop]

theorem takes_comment (ht : ¬ ['-', '-', '>'] <:+: t) :
    Takes (['<', '!', '-', '-'] ++ t ++ ['-', '-', '>']) .ignored unclosed unclosed := by
  have hsplit : ∀ rest, Ending.comment.split (['!', '-', '-'] ++ t ++ ['-', '-'] ++ '>' :: rest) =
      some (['!', '-', '-'] ++ t ++ ['-', '-'], rest) := by
    intro rest
    refine Ending.split_of_open ?_ ?_
    · intro before after h
      obtain ⟨u, v, rfl, rfl⟩ := exists_of_append_eq (by simp) (by simp) h
      rw [Ending.comment_foldl, Bool.eq_false_iff]
      intro hcloses
      simp only [Ending.comment, Bool.and_eq_true, decide_eq_true_eq, List.length_append] at hcloses
      -- the opening has three characters, so both dashes belong to the text
      have hdashes := List.suffix_of_suffix_length_le (Ending.two_le_trailing hcloses.2)
        (List.suffix_append _ u) (by
          have := hcloses.1
          simp only [List.length_cons, List.length_nil] at this ⊢
          omega)
      exact ht (infix_of_suffix hdashes v)
    · rw [Ending.comment_foldl, Ending.trailing_append_two]
      simp [Ending.comment]
  refine takes_of_readMarkup fun start rest => ?_
  have := hsplit rest
  simp only [List.cons_append, List.nil_append, List.append_assoc] at this ⊢
  simp [readMarkup, readDeclaration, beginsWith, finish, this]

theorem takes_characterData (ht : ¬ [']', ']', '>'] <:+: t) :
    Takes (['<', '!', '[', 'C', 'D', 'A', 'T', 'A', '['] ++ t ++ [']', ']', '>'])
      .ignored unclosed unclosed := by
  have hsplit : ∀ rest, Ending.characterData.split
      (['!', '[', 'C', 'D', 'A', 'T', 'A', '['] ++ t ++ [']', ']'] ++ '>' :: rest) =
        some (['!', '[', 'C', 'D', 'A', 'T', 'A', '['] ++ t ++ [']', ']'], rest) := by
    intro rest
    refine Ending.split_of_open ?_ ?_
    · intro before after h
      obtain ⟨u, v, rfl, rfl⟩ := exists_of_append_eq (by simp) (by simp) h
      rw [Ending.characterData_foldl, Bool.eq_false_iff]
      intro hcloses
      simp only [Ending.characterData, decide_eq_true_eq] at hcloses
      have hend : [']', ']'] <:+ ['!', '[', 'C', 'D', 'A', 'T', 'A'] ++ '[' :: u :=
        Ending.two_le_trailing hcloses
      exact ht (infix_of_suffix (suffix_of_append (by decide) hend) v)
    · rw [Ending.characterData_foldl, Ending.trailing_append_two]
      simp [Ending.characterData]
  refine takes_of_readMarkup fun start rest => ?_
  have := hsplit rest
  simp only [List.cons_append, List.nil_append, List.append_assoc] at this ⊢
  simp [readMarkup, readDeclaration, beginsWith, finish, this]

theorem takes_instruction (hs : t.head? ≠ some '>') (ht : ¬ ['?', '>'] <:+: t) :
    Takes (['<', '?'] ++ t ++ ['?', '>']) .ignored unclosed unclosed := by
  have hsplit : ∀ rest, Ending.instruction.split (['?'] ++ t ++ ['?'] ++ '>' :: rest) =
      some (['?'] ++ t ++ ['?'], rest) := by
    intro rest
    refine Ending.split_of_open ?_ ?_
    · intro before after h
      obtain ⟨u, v, rfl, rfl⟩ := exists_of_append_eq (by simp) (by simp) h
      rcases List.eq_nil_or_concat u with rfl | ⟨u, c, rfl⟩
      · simp at hs
      · simp only [List.concat_eq_append] at ht ⊢
        rw [List.foldl_append, List.foldl_append, Bool.eq_false_iff]
        simp only [List.foldl_cons, List.foldl_nil, Ending.instruction]
        intro hc
        obtain rfl : c = '?' := by simpa using hc
        exact ht (infix_of_suffix (List.suffix_append u ['?']) v)
    · rw [List.foldl_append]
      simp [Ending.instruction]
  refine takes_of_readMarkup fun start rest => ?_
  have := hsplit rest
  simp only [List.cons_append, List.nil_append, List.append_assoc] at this ⊢
  simp [readMarkup, readInstruction, finish, this]

theorem closingName_eq (hname : isName name = true) (hgap : Spaces gap) :
    closingName ('/' :: name ++ gap) = name := by
  have hfirst : ¬ (name ++ gap).all isSpace = true := by
    obtain ⟨first, rest, rfl, hfirst⟩ := exists_cons_of_isName hname
    simp [isSpace_of_isNameChar hfirst]
  have hgap : ∀ c ∈ gap.reverse, isSpace c = true := fun c hc => hgap c (List.mem_reverse.mp hc)
  have hlast : name.reverse.dropWhile isSpace = name.reverse := by
    cases hrev : name.reverse with
    | nil => rfl
    | cons last rest =>
      have hmem : last ∈ name := List.mem_reverse.mp (by simp [hrev])
      simp [isSpace_of_isNameChar (isNameChar_of_mem hname hmem)]
  simp only [closingName, List.cons_append, List.drop_succ_cons, List.drop_zero, if_neg hfirst]
  rw [List.reverse_append, List.dropWhile_append_of_pos hgap, hlast, List.reverse_reverse]

theorem takes_closing (hname : isName tag.toList = true) (hgap : Spaces gap) :
    Takes ('<' :: '/' :: tag.toList ++ gap ++ ['>']) (.closing tag) (tag :: unclosed) unclosed := by
  have hsplit : ∀ rest, Ending.tag.split ('/' :: tag.toList ++ gap ++ '>' :: rest) =
      some ('/' :: tag.toList ++ gap, rest) := by
    intro rest
    refine Ending.split_of_not_mem ?_ ?_
    · have h₁ := not_mem_of_isName hname (d := '>') (by decide)
      have h₂ := hgap.not_mem (c := '>') (by decide)
      simp [h₁, h₂]
    · rw [show Ending.tag.start = none from rfl, Ending.tag_foldl_plain]
      · rfl
      · intro c hc
        simp only [List.cons_append, List.mem_cons, List.mem_append] at hc
        rcases hc with rfl | hc | hc
        · decide
        · exact ne_quotes_of_isName hname hc
        · exact hgap.ne_quotes hc
  have hlast := closingName_eq hname hgap
  refine takes_of_readMarkup fun start rest => ?_
  have := hsplit rest
  simp only [List.cons_append, List.append_assoc] at this hlast ⊢
  simp [readMarkup, readClosing, finish, this, hlast]

theorem readMarkup_opening (h : WrittenTag tag attributes content)
    (htag : isName tag.toList = true) (start : Nat) (after : List Char) :
    readMarkup start unclosed (content ++ after) = readOpening start unclosed (content ++ after) := by
  obtain ⟨first, inner, rfl, hfirst⟩ := h.exists_cons htag
  have h₁ := ne_of_isNameChar hfirst (d := '!') (by decide)
  have h₂ := ne_of_isNameChar hfirst (d := '?') (by decide)
  have h₃ := ne_of_isNameChar hfirst (d := '/') (by decide)
  unfold readMarkup
  split <;> simp_all

theorem takes_childless (h : WrittenTag tag attributes content)
    (htag : isName tag.toList = true) (hnames : ∀ a ∈ attributes, isName a.name.toList = true) :
    Takes ('<' :: content ++ ['/', '>']) (.childless content) unclosed unclosed := by
  have hsplit : ∀ rest, Ending.tag.split (content ++ ['/'] ++ '>' :: rest) =
      some (content ++ ['/'], rest) := by
    intro rest
    refine Ending.split_of_not_mem ?_ ?_
    · simpa using h.not_mem_close htag hnames
    · rw [List.foldl_append, h.tag_foldl htag hnames]
      rfl
  rw [List.cons_append]
  refine takes_of_readMarkup fun start rest => ?_
  have := hsplit rest
  simp only [List.append_assoc, List.cons_append, List.nil_append] at this ⊢
  rw [readMarkup_opening h htag, readOpening, this]
  simp [finish]

theorem takes_opening (h : WrittenTag tag attributes content)
    (htag : isName tag.toList = true) (hnames : ∀ a ∈ attributes, isName a.name.toList = true) :
    Takes ('<' :: content ++ ['>']) (.opening content) unclosed (tag :: unclosed) := by
  have hsplit : ∀ rest, Ending.tag.split (content ++ '>' :: rest) = some (content, rest) :=
    fun rest => Ending.split_of_not_mem (h.not_mem_close htag hnames)
      (by rw [h.tag_foldl htag hnames]; rfl)
  rw [List.cons_append]
  refine takes_of_readMarkup fun start rest => ?_
  simp only [List.append_assoc, List.cons_append, List.nil_append]
  rw [readMarkup_opening h htag, readOpening, hsplit]
  simp [h.getLast_ne htag, (h.nameOf_eq htag).1, finish]

end

end Reader

-- ---------------------------------------------------------------------------
-- The element of a start tag
-- ---------------------------------------------------------------------------

/-- A value without references stands for itself. -/
theorem expandFrom_of_not_mem (h : '&' ∉ cs) (length position : Nat) :
    expandFrom length position cs = .ok cs := by
  have hplain : ∀ c ∈ cs, (c != '&') = true := fun c hc => bne_iff_ne.mpr fun e => h (e ▸ hc)
  have hdrop := List.dropWhile_eq_nil_iff.mpr hplain
  have htake := List.takeWhile_eq_self_iff.mpr hplain
  rw [expandFrom]
  split
  · rw [htake]
  · rename_i hs
    simp [hdrop] at hs

/-- A reference in a value stands for its character. -/
theorem expandFrom_of_entity (hplain : '&' ∉ plain) (hname : predefined? name = some c)
    (hlower : ∀ d ∈ name, d.isLower = true)
    (hcs : ∀ position, expandFrom length position cs = .ok expanded) (position : Nat) :
    expandFrom length position (plain ++ '&' :: name ++ ';' :: cs) =
      .ok (plain ++ c :: expanded) := by
  have hp : ∀ d ∈ plain, (d != '&') = true := fun d hd =>
    bne_iff_ne.mpr fun e => hplain (e ▸ hd)
  have hin : ∀ d ∈ name, (d != '&' && d != ';') = true := by
    intro d hd
    have hd := hlower d hd
    have h₁ : d ≠ '&' := by rintro rfl; simp at hd
    have h₂ : d ≠ ';' := by rintro rfl; simp at hd
    simp [h₁, h₂]
  have hentity : ∀ start, entity start name = .ok c := by
    intro start
    unfold entity
    split
    · have := hlower '#' (by simp)
      simp at this
    · simp [hname]
  have hdrop : (plain ++ '&' :: name ++ ';' :: cs).dropWhile (· != '&') =
      '&' :: (name ++ ';' :: cs) := by
    rw [List.append_assoc, List.dropWhile_append_of_pos hp]
    simp
  have htake : (plain ++ '&' :: name ++ ';' :: cs).takeWhile (· != '&') = plain := by
    rw [List.append_assoc, List.takeWhile_append_of_pos hp]
    simp
  have hdrop' : (name ++ ';' :: cs).dropWhile (fun d => d != '&' && d != ';') = ';' :: cs := by
    rw [List.dropWhile_append_of_pos hin]
    simp
  have htake' : (name ++ ';' :: cs).takeWhile (fun d => d != '&' && d != ';') = name := by
    rw [List.takeWhile_append_of_pos hin]
    simp
  rw [expandFrom]
  split
  · rename_i hs
    cases hdrop.symm.trans hs
  · rename_i rest hs
    obtain ⟨-, rfl⟩ := List.cons_eq_cons.mp (hdrop.symm.trans hs)
    split
    · rename_i rest' ht
      obtain ⟨-, rfl⟩ := List.cons_eq_cons.mp (hdrop'.symm.trans ht)
      simp only [htake, htake', hentity, hcs]
    · rename_i hno
      exact absurd hdrop' (hno cs)

theorem expand_writeValue (h : IsQuote quote) (value : List Char) :
    expand (writeValue quote value) = .ok value := by
  -- what precedes the part still to be expanded has no references
  have hfrom : ∀ plain, '&' ∉ plain → ∀ length position,
      expandFrom length position (plain ++ writeValue quote value) = .ok (plain ++ value) := by
    induction value with
    | nil => exact fun plain hplain length position => expandFrom_of_not_mem (by simpa [writeValue]) _ _
    | cons c value ih =>
      intro plain hplain length position
      rw [writeValue, List.flatMap_cons, ← writeValue]
      rcases writeChar_cases h c with ⟨name, hw, hname, hlower⟩ | ⟨hw, hamp, -, -⟩
      · have hcs := fun position => ih [] (by simp) length position
        simpa [hw] using expandFrom_of_entity hplain hname hlower hcs position
      · simpa [hw] using ih (plain ++ [c]) (by simp [hplain, Ne.symm hamp]) length position
  exact hfrom [] (by simp) _ _

theorem readValue_of_quoted (hquote : IsQuote quote) (hvalue : quote ∉ value)
    (key : List Char) (position : Nat) (text : List Char) :
    ∃ stop, readValue key position (quote :: value ++ quote :: text) =
      .ok ⟨key, value, stop, text⟩ := by
  have hinside : ∀ c ∈ value, (c != quote) = true := fun c hc =>
    bne_iff_ne.mpr fun e => hvalue (e ▸ hc)
  have hq : (quote == '"' || quote == '\x27') = true := by
    rcases hquote with rfl | rfl <;> rfl
  simp [readValue, hquote.isSpace_eq, hq, List.takeWhile_append_of_pos hinside,
    List.dropWhile_append_of_pos hinside]

theorem readAttribute_of_written (hkey : ∀ c ∈ key, isNameChar c = true)
    (hquote : IsQuote quote) (hvalue : quote ∉ value) (position : Nat) (first : Char)
    (text : List Char) :
    ∃ stop, readAttribute position first (key ++ '=' :: quote :: value ++ quote :: text) =
      .ok ⟨first :: key, value, stop, text⟩ := by
  have hinside : ∀ c ∈ key, (c != '=' && !isSpace c) = true := fun c hc => by
    simp [ne_of_isNameChar (hkey c hc) (d := '=') (by decide), isSpace_of_isNameChar (hkey c hc)]
  have htake : (key ++ '=' :: quote :: value ++ quote :: text).takeWhile
      (fun c => c != '=' && !isSpace c) = key := by
    simp [List.takeWhile_append_of_pos hinside]
  have hdrop : (key ++ '=' :: quote :: value ++ quote :: text).dropWhile
      (fun c => c != '=' && !isSpace c) = '=' :: (quote :: value ++ quote :: text) := by
    simp [List.dropWhile_append_of_pos hinside]
  rw [readAttribute]
  simp only [htake, hdrop]
  exact readValue_of_quoted hquote hvalue _ _ _

theorem readAttributes_of_written (h : WrittenAttributes attributes text)
    (hnames : ∀ a ∈ attributes, isName a.name.toList = true) (position : Nat) :
    readAttributes position text = .ok attributes := by
  induction h generalizing position with
  | nil hgap =>
    have hdrop := List.dropWhile_eq_nil_iff.mpr hgap
    rw [readAttributes]
    split
    · rfl
    · rename_i hs
      cases hdrop.symm.trans hs
  | @cons gap quote rest text a hgap hquote _ ih =>
    have hname := hnames a (by simp)
    obtain ⟨first, key, hkey, hfirst⟩ := exists_cons_of_isName hname
    have hwritten : ∀ position, ∃ stop, readAttribute position first
        (key ++ '=' :: quote :: writeValue quote a.value.toList ++ quote :: text) =
          .ok ⟨a.name.toList, writeValue quote a.value.toList, stop, text⟩ := by
      intro position
      rw [hkey]
      exact readAttribute_of_written (fun c hc => isNameChar_of_mem hname (by simp [hkey, hc]))
        hquote (not_mem_writeValue hquote (.inl rfl) _) position first text
    have hdrop : (gap ++ a.name.toList ++ '=' :: quote :: writeValue quote a.value.toList ++
        quote :: text).dropWhile isSpace =
          first :: (key ++ '=' :: quote :: writeValue quote a.value.toList ++ quote :: text) := by
      rw [List.append_assoc, List.append_assoc, List.dropWhile_append_of_pos hgap, hkey]
      simp [isSpace_of_isNameChar hfirst]
    rw [readAttributes]
    split
    · rename_i hs
      cases hdrop.symm.trans hs
    · rename_i hs
      obtain ⟨rfl, rfl⟩ := List.cons_eq_cons.mp (hdrop.symm.trans hs)
      obtain ⟨stop, hwritten⟩ := hwritten (position + Text.byteLength
        ((gap ++ a.name.toList ++ '=' :: quote :: writeValue quote a.value.toList ++
          quote :: text).takeWhile isSpace))
      split
      · rename_i hw
        cases hwritten.symm.trans hw
      · rename_i hw
        cases hwritten.symm.trans hw
        simp only [expand_writeValue hquote, ih (fun b hb => hnames b (by simp [hb])),
          String.ofList_toList]

theorem put_of_not_mem {present : List Attribute} (h : name ∉ present.map (·.name))
    (value : String) : Attribute.put name value present = present ++ [⟨name, value⟩] := by
  induction present with
  | nil => rfl
  | cons a present ih =>
    simp only [List.map_cons, List.mem_cons, not_or] at h
    simp [Attribute.put, Ne.symm h.1, ih h.2]

/-- Distinct names are kept as they come. -/
theorem putAll_of_nodup (present new : List Attribute)
    (h : ((present ++ new).map (·.name)).Nodup) :
    Attribute.putAll present new = present ++ new := by
  induction new generalizing present with
  | nil => simp [Attribute.putAll]
  | cons a new ih =>
    have ha : a.name ∉ present.map (·.name) := by
      simp only [List.map_append, List.map_cons] at h
      exact fun hm => (List.nodup_append.mp h).2.2 _ hm _ (by simp) rfl
    have hput := put_of_not_mem ha a.value
    have := ih (present ++ [a]) (by simpa using h)
    simpa [Attribute.putAll, hput] using this

theorem elementOf_written (h : WrittenTag tag attributes content)
    (htag : isName tag.toList = true) (hnames : ∀ a ∈ attributes, isName a.name.toList = true)
    (hdistinct : (attributes.map (·.name)).Nodup) :
    elementOf content = .ok ⟨tag, attributes, []⟩ := by
  obtain ⟨hname, hrest⟩ := h.nameOf_eq htag
  rw [elementOf, nameOf, hname, readAttributes_of_written hrest hnames]
  simp only [String.ofList_toList, putAll_of_nodup [] attributes hdistinct, List.nil_append]

-- ---------------------------------------------------------------------------
-- How a written text begins
-- ---------------------------------------------------------------------------

theorem WrittenElement.head_eq (h : WrittenElement e text) :
    ∀ c ∈ (text ++ rest).head?, c = '<' := by
  cases h <;> simp

theorem Filler.of_cons (h : Filler (c :: f)) (hc : c ≠ '<') : Filler f := by
  generalize hf : c :: f = text at h
  induction h with
  | nil => cases hf
  | @text t rest ht hrest ih =>
    cases t with
    | nil => exact ih hf
    | cons c' t =>
      obtain ⟨rfl, rfl⟩ := List.cons_eq_cons.mp hf
      exact .text (fun hm => ht (List.mem_cons_of_mem _ hm)) hrest
  | comment | characterData | instruction => exact absurd (List.cons_eq_cons.mp hf).1 hc

/-- Text before the root may lose its first character. -/
theorem WrittenBody.of_cons (h : WrittenBody es (c :: text)) (hc : c ≠ '<') :
    WrittenBody es text := by
  generalize hf : c :: text = whole at h
  cases h with
  | nil h =>
    subst hf
    exact .nil (h.of_cons hc)
  | @cons filler e inner _ body hfiller he hb =>
    cases filler with
    | nil =>
      rw [List.nil_append] at hf
      have hhead : c ∈ (inner ++ body).head? := by rw [← hf]; rfl
      exact absurd (he.head_eq c hhead) hc
    | cons c' filler =>
      obtain ⟨rfl, rfl⟩ := List.cons_eq_cons.mp hf
      exact .cons (hfiller.of_cons hc) he hb

end LayoutCompose.Markup
