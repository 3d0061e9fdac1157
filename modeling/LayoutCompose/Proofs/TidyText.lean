import LayoutCompose.Code.Tidy
import Mathlib.Data.List.DropRight

/-!
# What tidying takes away

Tidying takes blank characters and the commas that a closing bracket on a later line follows, and
nothing else. What is left has a normal form: no blank character at either end, no space or tab
at the end of a line, and no blank line after a blank line. A text that has this form and no such
comma stays as it is, and so does every piece of a line without commas that starts and ends with
characters that are not blank.
-/

namespace LayoutCompose.Tidy

open Text (isBlank dropEnd trimChars)

-- ---------------------------------------------------------------------------
-- Commas
-- ---------------------------------------------------------------------------

/-- Blank characters with a line feed come next, and after it nothing but spaces and tabs up to a
closing bracket. -/
def ClosedLater (rest : List Char) : Prop :=
  ∃ gap indent bracket after,
    rest = gap ++ '\n' :: (indent ++ bracket :: after) ∧ (∀ c ∈ gap, isBlank c = true) ∧
      (∀ c ∈ indent, c = ' ' ∨ c = '\t') ∧ (bracket = ')' ∨ bracket = '}' ∨ bracket = ']')

/-- What is kept of a text that loses exactly the commas with a closing bracket on a later line. -/
inductive WithoutCommas : List Char → List Char → Prop
  | nil : WithoutCommas [] []
  | drop : ClosedLater rest → WithoutCommas rest kept → WithoutCommas (',' :: rest) kept
  | keep : ¬ (c = ',' ∧ ClosedLater rest) → WithoutCommas rest kept →
      WithoutCommas (c :: rest) (c :: kept)

variable {text kept rest : List Char}

theorem isIndent_iff : isIndent c = true ↔ c = ' ' ∨ c = '\t' := by
  simp [isIndent]

theorem isBlank_of_isIndent (h : isIndent c = true) : isBlank c = true := by
  rcases isIndent_iff.mp h with rfl | rfl <;> decide

theorem isCloser_iff : isCloser c = true ↔ c = ')' ∨ c = '}' ∨ c = ']' := by
  simp [isCloser, or_assoc]

theorem isBlank_of_isCloser (h : isCloser c = true) : isBlank c = false := by
  rcases isCloser_iff.mp h with rfl | rfl | rfl <;> decide

theorem closedLater_of_closesNext (h : closesNext rest = true) : ClosedLater rest := by
  simp only [closesNext, Bool.and_eq_true, beq_iff_eq] at h
  obtain ⟨hlast, hcloser⟩ := h
  -- The line feed of the gap is the last one before the bracket, so only the indent is after it.
  obtain ⟨gap, hgap⟩ := List.getLast?_eq_some_iff.mp hlast
  cases hrest : rest.dropWhile isBlank with
  | nil => simp [hrest] at hcloser
  | cons bracket after =>
    have hbracket : isCloser bracket = true := by simpa [hrest] using hcloser
    have hblank : gap ++ ['\n'] ++ (rest.takeWhile isBlank).rtakeWhile isIndent =
        rest.takeWhile isBlank := by
      rw [← hgap]
      exact List.rdropWhile_append_rtakeWhile
    refine ⟨gap, (rest.takeWhile isBlank).rtakeWhile isIndent, bracket, after, ?_, ?_, ?_,
      isCloser_iff.mp hbracket⟩
    · calc rest
        _ = rest.takeWhile isBlank ++ bracket :: after := by
          rw [← hrest, List.takeWhile_append_dropWhile]
        _ = (gap ++ ['\n'] ++ (rest.takeWhile isBlank).rtakeWhile isIndent) ++
            bracket :: after := by rw [hblank]
        _ = _ := by simp
    · intro c hc
      have hmem : c ∈ rest.takeWhile isBlank := by
        rw [← hblank]
        simp [hc]
      exact List.mem_takeWhile_imp hmem
    · intro c hc
      exact isIndent_iff.mp (List.mem_rtakeWhile_imp hc)

theorem closesNext_of_closedLater (h : ClosedLater rest) : closesNext rest = true := by
  obtain ⟨gap, indent, bracket, after, rfl, hgap, hindent, hbracket⟩ := h
  have hbracket := isCloser_iff.mpr hbracket
  have hindent : ∀ c ∈ indent, isIndent c = true := fun c hc => isIndent_iff.mpr (hindent c hc)
  have hblank : ∀ c ∈ gap ++ '\n' :: indent, isBlank c = true := by
    intro c hc
    rcases List.mem_append.mp hc with hc | hc
    · exact hgap c hc
    rcases List.mem_cons.mp hc with rfl | hc
    · decide
    · exact isBlank_of_isIndent (hindent c hc)
  have hsplit : gap ++ '\n' :: (indent ++ bracket :: after) =
      (gap ++ '\n' :: indent) ++ bracket :: after := by simp
  have hlast : dropEnd isIndent (gap ++ '\n' :: indent) = gap ++ ['\n'] := by
    rw [List.append_cons, Text.dropEnd_append_of_all hindent,
      Text.dropEnd_concat_of_neg (by decide)]
  have hend := isBlank_of_isCloser hbracket
  simp only [closesNext, hsplit, List.takeWhile_append_of_pos hblank,
    List.dropWhile_append_of_pos hblank]
  simp [hend, hlast, hbracket]

theorem closesNext_iff (rest : List Char) : closesNext rest = true ↔ ClosedLater rest :=
  ⟨closedLater_of_closesNext, closesNext_of_closedLater⟩

instance decidableClosedLater (rest : List Char) : Decidable (ClosedLater rest) :=
  decidable_of_iff (closesNext rest = true) (closesNext_iff rest)

theorem dropCommasFrom_eq (done : List Char) (text : List Char) :
    dropCommasFrom done text = done.reverse ++ dropCommas text := by
  induction text generalizing done with
  | nil => simp [dropCommas, dropCommasFrom]
  | cons c rest ih =>
    rw [dropCommas, dropCommasFrom, dropCommasFrom, ih]
    split
    case isTrue => rfl
    case isFalse =>
      rw [ih]
      simp

theorem dropCommas_cons (c : Char) (rest : List Char) :
    dropCommas (c :: rest) =
      if c = ',' ∧ ClosedLater rest then dropCommas rest else c :: dropCommas rest := by
  rw [dropCommas, dropCommasFrom, dropCommasFrom_eq]
  simp only [Bool.and_eq_true, beq_iff_eq, closesNext_iff]
  split <;> rfl

theorem withoutCommas_dropCommas (text : List Char) : WithoutCommas text (dropCommas text) := by
  induction text with
  | nil => exact .nil
  | cons c rest ih =>
    rw [dropCommas_cons]
    split
    case isTrue h =>
      obtain ⟨rfl, hclosed⟩ := h
      exact .drop hclosed ih
    case isFalse h => exact .keep h ih

theorem WithoutCommas.unique (h : WithoutCommas text kept) (h' : WithoutCommas text other) :
    kept = other := by
  induction h generalizing other with
  | nil =>
    cases h'
    rfl
  | drop hclosed _ ih =>
    cases h' with
    | drop _ h' => exact ih h'
    | keep hopen _ => exact (hopen ⟨rfl, hclosed⟩).elim
  | keep hopen _ ih =>
    cases h' with
    | drop hclosed _ => exact (hopen ⟨rfl, hclosed⟩).elim
    | keep _ h' => rw [ih h']

theorem WithoutCommas.sublist (h : WithoutCommas text kept) : kept.Sublist text := by
  induction h with
  | nil => exact .slnil
  | drop _ _ ih => exact ih.cons _
  | keep _ _ ih => exact ih.cons_cons _

-- ---------------------------------------------------------------------------
-- Blank characters
-- ---------------------------------------------------------------------------

theorem atLineEnd_iff (rest : List Char) : atLineEnd rest = true ↔ rest = [] ∨ ['\n'] <+: rest := by
  cases rest with
  | nil => simp [atLineEnd]
  | cons c rest =>
    rw [List.singleton_prefix_iff_head?_eq_some]
    simp [atLineEnd]

theorem dropTrailing_cons (c : Char) (rest : List Char) :
    dropTrailing (c :: rest) =
      if isIndent c = true ∧ (dropTrailing rest = [] ∨ ['\n'] <+: dropTrailing rest)
      then dropTrailing rest else c :: dropTrailing rest := by
  change indentStep c (dropTrailing rest) = _
  simp only [indentStep, Bool.and_eq_true, atLineEnd_iff]

theorem beforeBlankLine_iff (rest : List Char) :
    beforeBlankLine rest = true ↔ ['\n', '\n'] <+: rest := by
  unfold beforeBlankLine
  split
  case h_1 => simp
  case h_2 hother =>
    simp only [Bool.false_eq_true, false_iff]
    rintro ⟨after, rfl⟩
    exact hother after rfl

theorem collapseBreaks_cons (c : Char) (rest : List Char) :
    collapseBreaks (c :: rest) =
      if c = '\n' ∧ ['\n', '\n'] <+: collapseBreaks rest
      then collapseBreaks rest else c :: collapseBreaks rest := by
  change breakStep c (collapseBreaks rest) = _
  simp only [breakStep, Bool.and_eq_true, beq_iff_eq, beforeBlankLine_iff]

structure LosesBlanks (text kept : List Char) : Prop where
  sublist : kept.Sublist text
  visible : kept.filter (!isBlank ·) = text.filter (!isBlank ·)

namespace LosesBlanks

theorem refl (text : List Char) : LosesBlanks text text := ⟨.refl text, rfl⟩

theorem trans (h : LosesBlanks text kept) (h' : LosesBlanks kept left) : LosesBlanks text left :=
  ⟨h'.sublist.trans h.sublist, h'.visible.trans h.visible⟩

theorem keep (c : Char) (h : LosesBlanks rest kept) : LosesBlanks (c :: rest) (c :: kept) := by
  refine ⟨h.sublist.cons_cons c, ?_⟩
  rw [List.filter_cons, List.filter_cons, h.visible]

theorem drop (hc : isBlank c = true) (h : LosesBlanks rest kept) :
    LosesBlanks (c :: rest) kept := by
  refine ⟨h.sublist.cons c, ?_⟩
  rw [h.visible]
  simp [hc]

theorem reverse (h : LosesBlanks text kept) : LosesBlanks text.reverse kept.reverse := by
  refine ⟨h.sublist.reverse, ?_⟩
  rw [List.filter_reverse, List.filter_reverse, h.visible]

end LosesBlanks

theorem losesBlanks_dropTrailing (text : List Char) : LosesBlanks text (dropTrailing text) := by
  induction text with
  | nil => exact .refl []
  | cons c rest ih =>
    rw [dropTrailing_cons]
    split
    case isTrue h => exact ih.drop (isBlank_of_isIndent h.1)
    case isFalse => exact ih.keep c

theorem losesBlanks_collapseBreaks (text : List Char) :
    LosesBlanks text (collapseBreaks text) := by
  induction text with
  | nil => exact .refl []
  | cons c rest ih =>
    rw [collapseBreaks_cons]
    split
    case isTrue h =>
      obtain ⟨rfl, -⟩ := h
      exact ih.drop (by decide)
    case isFalse => exact ih.keep c

theorem losesBlanks_dropWhile (text : List Char) :
    LosesBlanks text (text.dropWhile isBlank) := by
  induction text with
  | nil => exact .refl []
  | cons c rest ih =>
    rw [List.dropWhile_cons]
    split
    case isTrue hc => exact ih.drop hc
    case isFalse => exact .refl _

theorem losesBlanks_dropEnd (text : List Char) : LosesBlanks text (dropEnd isBlank text) := by
  simpa [dropEnd] using (losesBlanks_dropWhile text.reverse).reverse

theorem losesBlanks_trimChars (text : List Char) : LosesBlanks text (trimChars text) :=
  (losesBlanks_dropWhile text).trans (losesBlanks_dropEnd _)

theorem losesBlanks_tidyChars (text : List Char) :
    LosesBlanks (dropCommas text) (tidyChars text) :=
  ((losesBlanks_dropTrailing _).trans (losesBlanks_collapseBreaks _)).trans
    (losesBlanks_trimChars _)

/-- Tidying takes nothing but blank characters and the commas with a closing bracket on a later
line. -/
theorem visible_tidy (code : String) :
    ∃ kept, WithoutCommas code.toList kept ∧
      (tidy code).toList.filter (!isBlank ·) = kept.filter (!isBlank ·) ∧
      (tidy code).toList.Sublist kept := by
  have htidy : (tidy code).toList = tidyChars code.toList := by simp [tidy]
  obtain ⟨hsublist, hvisible⟩ := losesBlanks_tidyChars code.toList
  rw [htidy]
  exact ⟨_, withoutCommas_dropCommas code.toList, hvisible, hsublist⟩

-- ---------------------------------------------------------------------------
-- The normal form
-- ---------------------------------------------------------------------------

/-- No line of the text ends with a space or a tab, but for the last one. -/
def CleanEnds (text : List Char) : Prop := ∀ c, c = ' ' ∨ c = '\t' → ¬ [c, '\n'] <:+: text

def FewBreaks (text : List Char) : Prop := ¬ ['\n', '\n', '\n'] <:+: text

structure IsTidy (text : List Char) : Prop where
  first : ∀ c, text.head? = some c → isBlank c = false
  last : ∀ c, text.getLast? = some c → isBlank c = false
  cleanEnds : CleanEnds text
  fewBreaks : FewBreaks text

theorem CleanEnds.of_isInfix (h : CleanEnds text) (hpart : part <:+: text) : CleanEnds part :=
  fun c hc hpair => h c hc (hpair.trans hpart)

theorem FewBreaks.of_isInfix (h : FewBreaks text) (hpart : part <:+: text) : FewBreaks part :=
  fun hrun => h (hrun.trans hpart)

theorem cleanEnds_cons :
    CleanEnds (c :: rest) ↔ ¬ (isIndent c = true ∧ ['\n'] <+: rest) ∧ CleanEnds rest := by
  simp only [CleanEnds, List.infix_cons_iff, List.cons_prefix_cons, isIndent_iff]
  grind

theorem fewBreaks_cons :
    FewBreaks (c :: rest) ↔ ¬ (c = '\n' ∧ ['\n', '\n'] <+: rest) ∧ FewBreaks rest := by
  simp only [FewBreaks, List.infix_cons_iff, List.cons_prefix_cons]
  grind

theorem cleanEnds_dropTrailing (text : List Char) : CleanEnds (dropTrailing text) := by
  induction text with
  | nil => simp [CleanEnds, dropTrailing]
  | cons c rest ih =>
    rw [dropTrailing_cons]
    split
    case isTrue => exact ih
    case isFalse h => exact cleanEnds_cons.mpr ⟨fun hend => h ⟨hend.1, .inr hend.2⟩, ih⟩

theorem dropTrailing_eq_self (hends : CleanEnds text)
    (hlast : ∀ c, text.getLast? = some c → isIndent c = false) : dropTrailing text = text := by
  induction text with
  | nil => rfl
  | cons c rest ih =>
    obtain ⟨hend, hends⟩ := cleanEnds_cons.mp hends
    have hrest : dropTrailing rest = rest := by
      apply ih hends
      intro d hd
      exact hlast d (by rw [List.getLast?_cons, hd]; rfl)
    rw [dropTrailing_cons, hrest]
    apply if_neg
    rintro ⟨hindent, rfl | hfeed⟩
    · simp [hlast c rfl] at hindent
    · exact hend ⟨hindent, hfeed⟩

/-- A line feed goes only if another one takes its place. -/
theorem head?_collapseBreaks (text : List Char) : (collapseBreaks text).head? = text.head? := by
  cases text with
  | nil => rfl
  | cons c rest =>
    rw [collapseBreaks_cons]
    split
    case isTrue h =>
      obtain ⟨rfl, after, hafter⟩ := h
      rw [← hafter]
      rfl
    case isFalse => rfl

theorem CleanEnds.collapseBreaks (h : CleanEnds text) : CleanEnds (collapseBreaks text) := by
  induction text with
  | nil => exact h
  | cons c rest ih =>
    obtain ⟨hend, hrest⟩ := cleanEnds_cons.mp h
    rw [collapseBreaks_cons]
    split
    case isTrue => exact ih hrest
    case isFalse =>
      refine cleanEnds_cons.mpr ⟨?_, ih hrest⟩
      rintro ⟨hindent, hfeed⟩
      -- A line feed that comes next now came next before.
      rw [List.singleton_prefix_iff_head?_eq_some, head?_collapseBreaks,
        ← List.singleton_prefix_iff_head?_eq_some] at hfeed
      exact hend ⟨hindent, hfeed⟩

theorem fewBreaks_collapseBreaks (text : List Char) : FewBreaks (collapseBreaks text) := by
  induction text with
  | nil => simp [FewBreaks, collapseBreaks]
  | cons c rest ih =>
    rw [collapseBreaks_cons]
    split
    case isTrue => exact ih
    case isFalse h => exact fewBreaks_cons.mpr ⟨h, ih⟩

theorem collapseBreaks_eq_self (h : FewBreaks text) : collapseBreaks text = text := by
  induction text with
  | nil => rfl
  | cons c rest ih =>
    obtain ⟨hbreak, hrest⟩ := fewBreaks_cons.mp h
    rw [collapseBreaks_cons, ih hrest]
    exact if_neg hbreak

/-- A line feed and then at least two lines of nothing but spaces and tabs, each with its line
feed. -/
def IsBlankRun (run : List Char) : Prop :=
  ∃ lines : List (List Char), 2 ≤ lines.length ∧ (∀ line ∈ lines, ∀ c ∈ line, c = ' ' ∨ c = '\t') ∧
    run = '\n' :: lines.flatMap (· ++ ['\n'])

/-- What is kept of a text if each such run, taken from the left and as long as it gets, becomes
two line feeds. -/
inductive Collapsed : List Char → List Char → Prop
  | nil : Collapsed [] []
  | run : IsBlankRun run →
      (∀ longer, IsBlankRun longer → longer <+: run ++ after → longer.length ≤ run.length) →
      Collapsed after left → Collapsed (run ++ after) ('\n' :: '\n' :: left)
  | keep : (∀ run, IsBlankRun run → ¬ run <+: c :: after) → Collapsed after left →
      Collapsed (c :: after) (c :: left)

theorem IsBlankRun.ne_nil (h : IsBlankRun run) : run ≠ [] := by
  obtain ⟨_, -, -, rfl⟩ := h
  simp

theorem Collapsed.unique (h : Collapsed text kept) (h' : Collapsed text other) :
    kept = other := by
  induction h generalizing other with
  | nil =>
    generalize htext : [] = text at h'
    cases h' with
    | nil => rfl
    | run hrun => simp [hrun.ne_nil] at htext
    | keep => cases htext
  | @run run rest kept hrun hlongest _ ih =>
    generalize htext : run ++ rest = text at h'
    cases h' with
    | nil => simp [hrun.ne_nil] at htext
    | @run run' rest' kept' hrun' hlongest' h' =>
      have hle := hlongest run' hrun' (htext ▸ List.prefix_append run' rest')
      have hge := hlongest' run hrun (htext ▸ List.prefix_append run rest)
      obtain ⟨rfl, rfl⟩ := List.append_inj htext (Nat.le_antisymm hge hle)
      rw [ih h']
    | keep hnone => exact (hnone run hrun (htext ▸ List.prefix_append run rest)).elim
  | @keep c rest kept hnone _ ih =>
    generalize htext : c :: rest = text at h'
    cases h' with
    | nil => cases htext
    | @run run rest _ hrun => exact (hnone run hrun (htext ▸ List.prefix_append run rest)).elim
    | keep _ h' =>
      cases htext
      rw [ih h']

theorem flatMap_replicate_nil (n : Nat) :
    (List.replicate n []).flatMap (· ++ ['\n']) = List.replicate n '\n' := by
  induction n with
  | zero => rfl
  | succ n ih => rw [List.replicate_succ, List.flatMap_cons, ih, List.replicate_succ]; rfl

/-- Where no line ends with a space or a tab, such a run is line feeds alone. -/
theorem IsBlankRun.eq_replicate (h : IsBlankRun run) (hends : CleanEnds run) :
    ∃ n, 3 ≤ n ∧ run = List.replicate n '\n' := by
  obtain ⟨lines, hlength, hlines, rfl⟩ := h
  have hnil : ∀ line ∈ lines, line = [] := by
    intro line hline
    rcases List.eq_nil_or_concat line with hempty | ⟨start, c, rfl⟩
    · exact hempty
    obtain ⟨before, after, rfl⟩ := List.append_of_mem hline
    have hc := hlines _ hline c (by simp)
    refine (hends c hc ⟨'\n' :: before.flatMap (· ++ ['\n']) ++ start,
      after.flatMap (· ++ ['\n']), ?_⟩).elim
    simp
  rw [List.eq_replicate_of_mem hnil, flatMap_replicate_nil]
  exact ⟨lines.length + 1, by omega, rfl⟩

theorem isBlankRun_replicate (h : 3 ≤ n) : IsBlankRun (List.replicate n '\n') := by
  obtain ⟨m, rfl⟩ := Nat.exists_eq_add_of_le' h
  refine ⟨List.replicate (m + 2) [], by simp, by simp, ?_⟩
  rw [flatMap_replicate_nil]
  rfl

theorem collapseBreaks_replicate (n : Nat) (h : rest.head? ≠ some '\n') :
    collapseBreaks (List.replicate (n + 2) '\n' ++ rest) = '\n' :: '\n' :: collapseBreaks rest := by
  induction n with
  | zero =>
    rw [← head?_collapseBreaks] at h
    have hnone : ∀ more, ¬ '\n' :: more <+: collapseBreaks rest := by
      rintro more ⟨tail, htail⟩
      simp [← htail] at h
    have hlast : collapseBreaks ('\n' :: rest) = '\n' :: collapseBreaks rest := by
      rw [collapseBreaks_cons, if_neg fun hfeeds => hnone _ hfeeds.2]
    change collapseBreaks ('\n' :: '\n' :: rest) = _
    rw [collapseBreaks_cons, hlast, if_neg]
    rintro ⟨-, hfeeds⟩
    exact hnone _ (List.cons_prefix_cons.mp hfeeds).2
  | succ n ih =>
    rw [List.replicate_succ, List.cons_append, collapseBreaks_cons, ih]
    simp

theorem feeds_prefix_collapseBreaks_iff (text : List Char) :
    ['\n', '\n'] <+: collapseBreaks text ↔ ['\n', '\n'] <+: text := by
  cases text with
  | nil => rfl
  | cons c rest =>
    have hsecond : ['\n'] <+: collapseBreaks rest ↔ ['\n'] <+: rest := by
      simp only [List.singleton_prefix_iff_head?_eq_some, head?_collapseBreaks]
    rw [collapseBreaks_cons, List.cons_prefix_cons]
    split
    case isTrue h =>
      have hfirst : ['\n'] <+: collapseBreaks rest := (List.prefix_append ['\n'] ['\n']).trans h.2
      exact iff_of_true h.2 ⟨h.1.symm, hsecond.mp hfirst⟩
    case isFalse => rw [List.cons_prefix_cons, hsecond]

theorem exists_feeds (text : List Char) :
    ∃ n rest, text = List.replicate n '\n' ++ rest ∧ rest.head? ≠ some '\n' := by
  induction text with
  | nil => exact ⟨0, [], rfl, by simp⟩
  | cons c text ih =>
    by_cases hc : c = '\n'
    · obtain ⟨n, rest, rfl, hrest⟩ := ih
      exact ⟨n + 1, rest, by rw [hc, List.replicate_succ]; rfl, hrest⟩
    · exact ⟨0, c :: text, rfl, by simpa using hc⟩

theorem le_of_replicate_prefix (h : rest.head? ≠ some '\n')
    (hlead : List.replicate k '\n' <+: List.replicate n '\n' ++ rest) : k ≤ n := by
  by_contra hlong
  obtain ⟨m, rfl⟩ : ∃ m, k = n + (m + 1) := ⟨k - n - 1, by omega⟩
  rw [List.replicate_add, List.prefix_append_right_inj, List.replicate_succ] at hlead
  obtain ⟨tail, rfl⟩ := hlead
  simp at h

/-- Where no line ends with a space or a tab, dropping the line feeds after two line feeds
collapses the runs. -/
theorem collapsed_collapseBreaks (text : List Char) (h : CleanEnds text) :
    Collapsed text (collapseBreaks text) := by
  by_cases hfeeds : ['\n', '\n', '\n'] <+: text
  case pos =>
    obtain ⟨n, rest, rfl, hrest⟩ := exists_feeds text
    have hn : 3 ≤ n := le_of_replicate_prefix (k := 3) hrest hfeeds
    have hlongest : ∀ longer, IsBlankRun longer → longer <+: List.replicate n '\n' ++ rest →
        longer.length ≤ (List.replicate n '\n').length := by
      intro longer hrun hlonger
      obtain ⟨k, -, rfl⟩ := hrun.eq_replicate (h.of_isInfix hlonger.isInfix)
      simpa using le_of_replicate_prefix hrest hlonger
    have hkept := collapsed_collapseBreaks rest (h.of_isInfix (List.suffix_append _ _).isInfix)
    obtain ⟨m, rfl⟩ : ∃ m, n = m + 2 := ⟨n - 2, by omega⟩
    rw [collapseBreaks_replicate m hrest]
    exact .run (isBlankRun_replicate hn) hlongest hkept
  case neg =>
    cases text with
    | nil => exact .nil
    | cons c rest =>
      have hnone : ∀ run, IsBlankRun run → ¬ run <+: c :: rest := by
        intro run hrun hlead
        obtain ⟨n, hn, rfl⟩ := hrun.eq_replicate (h.of_isInfix hlead.isInfix)
        obtain ⟨m, rfl⟩ := Nat.exists_eq_add_of_le hn
        rw [List.replicate_add] at hlead
        exact hfeeds ((List.prefix_append (List.replicate 3 '\n') _).trans hlead)
      have hkept := collapsed_collapseBreaks rest (cleanEnds_cons.mp h).2
      rw [collapseBreaks_cons, if_neg]
      · exact .keep hnone hkept
      rintro ⟨rfl, hnext⟩
      rw [feeds_prefix_collapseBreaks_iff] at hnext
      exact hfeeds (List.cons_prefix_cons.mpr ⟨rfl, hnext⟩)
termination_by text.length
decreasing_by
  all_goals simp_all
  all_goals omega

/-- After the second pass, the third one leaves what collapsing runs of blank lines leaves. -/
theorem collapsed_dropTrailing_iff (text kept : List Char) :
    Collapsed (dropTrailing text) kept ↔ kept = collapseBreaks (dropTrailing text) := by
  have hcollapsed := collapsed_collapseBreaks _ (cleanEnds_dropTrailing text)
  exact ⟨fun h => h.unique hcollapsed, fun h => h ▸ hcollapsed⟩

theorem isBlank_of_head?_trimChars (h : (trimChars text).head? = some c) : isBlank c = false := by
  obtain ⟨tail, htail⟩ := List.head?_eq_some_iff.mp h
  obtain ⟨after, hafter⟩ := Text.isPrefix_trimChars text
  have hstart := List.head?_dropWhile_not isBlank text
  rw [← hafter, htail] at hstart
  exact hstart

theorem isBlank_of_getLast?_trimChars (h : (trimChars text).getLast? = some c) :
    isBlank c = false := by
  obtain ⟨hne, rfl⟩ := List.mem_getLast?_eq_getLast h
  exact eq_false_of_ne_true (List.rdropWhile_last_not isBlank _ hne)

theorem trimChars_eq_self (hfirst : ∀ c, text.head? = some c → isBlank c = false)
    (hlast : ∀ c, text.getLast? = some c → isBlank c = false) : trimChars text = text := by
  have hstart : text.dropWhile isBlank = text := by
    cases text with
    | nil => rfl
    | cons c rest => exact List.dropWhile_cons_of_neg (by simp [hfirst c rfl])
  rw [trimChars, hstart]
  apply List.rdropWhile_eq_self_iff.mpr
  intro hne
  simp [hlast _ (List.getLast?_eq_some_getLast hne)]

theorem isTidy_tidyChars (text : List Char) : IsTidy (tidyChars text) where
  first _ := isBlank_of_head?_trimChars
  last _ := isBlank_of_getLast?_trimChars
  cleanEnds := (cleanEnds_dropTrailing _).collapseBreaks.of_isInfix (Text.isInfix_trimChars _)
  fewBreaks := (fewBreaks_collapseBreaks _).of_isInfix (Text.isInfix_trimChars _)

-- The line of the second comma becomes blank, and the blank lines after it go.
example : tidyChars "a(b,\n  ,\n \t\n\n  )\n".toList = "a(b,\n\n  )".toList := by decide

theorem tidyChars_eq_self_iff (text : List Char) :
    tidyChars text = text ↔ IsTidy text ∧ WithoutCommas text text := by
  constructor
  · intro h
    have htidy := isTidy_tidyChars text
    have hcommas := withoutCommas_dropCommas text
    have hsublist := (losesBlanks_tidyChars text).sublist
    rw [h] at htidy hsublist
    rw [hcommas.sublist.antisymm hsublist] at hcommas
    exact ⟨htidy, hcommas⟩
  · rintro ⟨htidy, hcommas⟩
    have hkept : dropCommas text = text := (withoutCommas_dropCommas text).unique hcommas
    have hindent : ∀ c, text.getLast? = some c → isIndent c = false := by
      intro c hc
      refine eq_false_of_ne_true fun hindent => ?_
      simpa [htidy.last c hc] using isBlank_of_isIndent hindent
    rw [tidyChars, hkept, dropTrailing_eq_self htidy.cleanEnds hindent,
      collapseBreaks_eq_self htidy.fewBreaks, trimChars_eq_self htidy.first htidy.last]

/-- Tidying a text brings it to the normal form, and leaves alone what has it and no comma to
drop. -/
theorem isTidy_tidy (code : String) :
    IsTidy (tidy code).toList ∧
      (tidy code = code ↔ IsTidy code.toList ∧ WithoutCommas code.toList code.toList) := by
  have htidy : (tidy code).toList = tidyChars code.toList := by simp [tidy]
  rw [← String.toList_inj, htidy]
  exact ⟨isTidy_tidyChars _, tidyChars_eq_self_iff _⟩

-- ---------------------------------------------------------------------------
-- Pieces of a line
-- ---------------------------------------------------------------------------

theorem suffix_dropCommas (before rest : List Char) :
    dropCommas rest <:+ dropCommas (before ++ rest) := by
  induction before with
  | nil => exact List.suffix_rfl
  | cons c before ih =>
    rw [List.cons_append, dropCommas_cons]
    split
    · exact ih
    · exact ih.trans (List.suffix_cons c _)

theorem suffix_foldr {step : Char → List Char → List Char} (h : ∀ c rest, rest <:+ step c rest)
    (before rest : List Char) : rest.foldr step [] <:+ (before ++ rest).foldr step [] := by
  induction before with
  | nil => exact List.suffix_rfl
  | cons c before ih => exact ih.trans (h c _)

theorem suffix_indentStep (c : Char) (rest : List Char) : rest <:+ indentStep c rest := by
  unfold indentStep
  split <;> simp

theorem suffix_breakStep (c : Char) (rest : List Char) : rest <:+ breakStep c rest := by
  unfold breakStep
  split <;> simp

theorem dropCommas_append (h : ',' ∉ part) (rest : List Char) :
    dropCommas (part ++ rest) = part ++ dropCommas rest := by
  induction part with
  | nil => rfl
  | cons c part ih =>
    rw [List.mem_cons, not_or] at h
    rw [List.cons_append, dropCommas_cons, if_neg fun hc => h.1 hc.1.symm, ih h.2]
    rfl

theorem dropTrailing_append (hfeed : '\n' ∉ part)
    (hlast : ∀ c, part.getLast? = some c → isBlank c = false) (rest : List Char) :
    dropTrailing (part ++ rest) = part ++ dropTrailing rest := by
  induction part with
  | nil => rfl
  | cons c part ih =>
    rw [List.mem_cons, not_or] at hfeed
    have hrest : dropTrailing (part ++ rest) = part ++ dropTrailing rest := by
      refine ih hfeed.2 fun d hd => hlast d ?_
      rw [List.getLast?_cons, hd]
      rfl
    rw [List.cons_append, dropTrailing_cons, hrest, if_neg]
    · rfl
    rintro ⟨hindent, hend⟩
    cases part with
    | nil => simp [isBlank_of_isIndent hindent] at hlast
    | cons d part =>
      rcases hend with hnil | hnext
      · cases hnil
      · obtain ⟨rfl, -⟩ := List.cons_prefix_cons.mp hnext
        exact hfeed.2 List.mem_cons_self

theorem collapseBreaks_append (h : '\n' ∉ part) (rest : List Char) :
    collapseBreaks (part ++ rest) = part ++ collapseBreaks rest := by
  induction part with
  | nil => rfl
  | cons c part ih =>
    rw [List.mem_cons, not_or] at h
    rw [List.cons_append, collapseBreaks_cons, if_neg fun hc => h.1 hc.1.symm, ih h.2]
    rfl

theorem infix_dropWhile (hfirst : ∀ c, part.head? = some c → isBlank c = false)
    (h : part <:+: text) : part <:+: text.dropWhile isBlank := by
  induction text with
  | nil => exact h
  | cons c rest ih =>
    rw [List.dropWhile_cons]
    split
    case isFalse => exact h
    case isTrue hblank =>
      rcases List.infix_cons_iff.mp h with hlead | hrest
      · cases part with
        | nil => exact List.nil_infix
        | cons d part =>
          obtain ⟨rfl, -⟩ := List.cons_prefix_cons.mp hlead
          simp [hblank] at hfirst
      · exact ih hrest

structure IsPiece (part : List Char) : Prop where
  comma : ',' ∉ part
  feed : '\n' ∉ part
  first : ∀ c, part.head? = some c → isBlank c = false
  last : ∀ c, part.getLast? = some c → isBlank c = false

theorem IsPiece.infix_dropCommas (hpart : IsPiece part) (h : part <:+: text) :
    part <:+: dropCommas text := by
  obtain ⟨before, rest, rfl⟩ := h
  have hsuffix := suffix_dropCommas before (part ++ rest)
  rw [dropCommas_append hpart.comma, ← List.append_assoc] at hsuffix
  exact (List.prefix_append part _).isInfix.trans hsuffix.isInfix

/-- A pass that goes through a piece as it stands keeps it, whatever it does before and after. -/
theorem infix_foldr {step : Char → List Char → List Char} (hstep : ∀ c rest, rest <:+ step c rest)
    (hpart : ∀ rest, (part ++ rest).foldr step [] = part ++ rest.foldr step [])
    (h : part <:+: text) : part <:+: text.foldr step [] := by
  obtain ⟨before, rest, rfl⟩ := h
  have hsuffix := suffix_foldr hstep before (part ++ rest)
  rw [hpart, ← List.append_assoc] at hsuffix
  exact (List.prefix_append part _).isInfix.trans hsuffix.isInfix

theorem IsPiece.infix_trimChars (hpart : IsPiece part) (h : part <:+: text) :
    part <:+: trimChars text := by
  have hreverse := List.reverse_infix.mpr (infix_dropWhile hpart.first h)
  rw [← List.reverse_infix, trimChars, dropEnd, List.reverse_reverse]
  refine infix_dropWhile (fun c hc => hpart.last c ?_) hreverse
  rwa [List.head?_reverse] at hc

/-- Tidying leaves pieces of a line where they are. -/
theorem IsPiece.infix_tidyChars (hpart : IsPiece part) (h : part <:+: text) :
    part <:+: tidyChars text := by
  have hcommas := hpart.infix_dropCommas h
  have htrailing := infix_foldr suffix_indentStep
    (dropTrailing_append hpart.feed hpart.last) hcommas
  have hbreaks := infix_foldr suffix_breakStep (collapseBreaks_append hpart.feed) htrailing
  exact hpart.infix_trimChars hbreaks

end LayoutCompose.Tidy
