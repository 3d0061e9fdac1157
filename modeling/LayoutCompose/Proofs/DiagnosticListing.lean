import LayoutCompose.Proofs.BlockComments
import LayoutCompose.Proofs.Brackets
import Mathlib.Data.List.Forall2

/-!
# The lines of a listing of diagnostics

A listing shows every diagnostic on a line of its own, in order and below the title of its section.
What a diagnostic says has its line breaks replaced by `\n` and every `*/` by `* /`, so that it
neither leaves its line nor ends the comment.
-/

namespace LayoutCompose

namespace Comment

-- ---------------------------------------------------------------------------
-- Replacements
-- ---------------------------------------------------------------------------

/-- From left to right, every occurrence of `old` gives way to `new`. -/
inductive Replaces (old new : List Char) : List Char → List Char → Prop
  | nil : Replaces old new [] []
  | hit : Replaces old new text result → Replaces old new (old ++ text) (new ++ result)
  | miss : ¬ old <+: c :: text → Replaces old new text result →
      Replaces old new (c :: text) (c :: result)

/-- Each line break becomes `\n`. A carriage return with a line feed is one line break. -/
def FoldsBreaks (text folded : List Char) : Prop :=
  ∃ pairs feeds, Replaces ['\r', '\n'] ['\\', 'n'] text pairs ∧
    Replaces ['\n'] ['\\', 'n'] pairs feeds ∧ Replaces ['\r'] ['\\', 'n'] feeds folded

def BreaksEnds (text broken : List Char) : Prop := Replaces ['*', '/'] ['*', ' ', '/'] text broken

theorem Replaces.miss_char (hc : c ≠ d) (h : Replaces [d] new text result) :
    Replaces [d] new (c :: text) (c :: result) := by
  refine .miss ?_ h
  rw [List.cons_prefix_cons]
  rintro ⟨rfl, -⟩
  exact hc rfl

theorem Replaces.unique (hold : old ≠ []) (h : Replaces old new text result)
    (h' : Replaces old new text result') : result = result' := by
  induction h generalizing result' with
  | nil =>
    generalize hempty : ([] : List Char) = empty at h'
    cases h' with
    | nil => rfl
    | hit => exact (hold (List.append_eq_nil_iff.mp hempty.symm).1).elim
    | miss => cases hempty
  | @hit text result _ ih =>
    generalize hwhole : old ++ text = whole at h'
    cases h' with
    | nil => exact (hold (List.append_eq_nil_iff.mp hwhole).1).elim
    | hit h' =>
      obtain rfl := List.append_cancel_left hwhole
      rw [ih h']
    | miss hnot => exact (hnot ⟨_, hwhole⟩).elim
  | @miss c text result hnot _ ih =>
    generalize hwhole : c :: text = whole at h'
    cases h' with
    | nil => cases hwhole
    | hit => exact (hnot ⟨_, hwhole.symm⟩).elim
    | miss _ h' =>
      cases hwhole
      rw [ih h']

theorem isPrefix_of_append_cons {old a b : List Char} (hc : c ∉ old) (h : old <+: a ++ c :: b) :
    old <+: a := by
  obtain hshort | ⟨rest, rfl⟩ := List.prefix_or_prefix_of_prefix h (List.prefix_append a (c :: b))
  · exact hshort
  · rw [List.prefix_append_right_inj] at h
    cases rest with
    | nil => simp
    | cons d rest =>
      obtain ⟨rfl, -⟩ := List.cons_prefix_cons.mp h
      simp at hc

/-- No occurrence reaches over a character that is not part of it. -/
theorem Replaces.append_cons (hold : old ≠ []) (hc : c ∉ old) (ha : Replaces old new a resultA)
    (hb : Replaces old new b resultB) :
    Replaces old new (a ++ c :: b) (resultA ++ c :: resultB) := by
  induction ha with
  | nil => exact .miss (fun h => hold (List.prefix_nil.mp (isPrefix_of_append_cons hc h))) hb
  | hit _ ih =>
    rw [List.append_assoc, List.append_assoc]
    exact .hit ih
  | miss hnot _ ih => exact .miss (fun h => hnot (isPrefix_of_append_cons hc h)) ih

theorem not_isPrefix_pair {rest : List Char} (h : ∀ after, c = a → rest = b :: after → False) :
    ¬ [a, b] <+: c :: rest := by
  rintro ⟨after, hafter⟩
  obtain ⟨rfl, rfl⟩ := List.cons_eq_cons.mp hafter
  exact h after rfl rfl

theorem breaksEnds_breakEnds (l : List Char) : BreaksEnds l (breakEnds l) := by
  fun_induction breakEnds l with
  | case1 => exact .nil
  | case2 rest ih => exact ih.hit
  | case3 c rest hend ih => exact ih.miss (not_isPrefix_pair hend)

theorem foldsBreaks_foldBreaks (l : List Char) : FoldsBreaks l (foldBreaks l) := by
  -- One of the three replacements takes a line break, and the later ones pass over what it wrote.
  fun_induction foldBreaks l with
  | case1 => exact ⟨[], [], .nil, .nil, .nil⟩
  | case2 rest ih =>
    obtain ⟨pairs, feeds, hpairs, hfeeds, hreturns⟩ := ih
    exact ⟨_, _, hpairs.hit, (hfeeds.miss_char (by decide)).miss_char (by decide),
      (hreturns.miss_char (by decide)).miss_char (by decide)⟩
  | case3 c rest hpair hbreak ih =>
    obtain ⟨pairs, feeds, hpairs, hfeeds, hreturns⟩ := ih
    have hpairs := hpairs.miss (not_isPrefix_pair hpair)
    simp only [Bool.or_eq_true, beq_iff_eq] at hbreak
    rcases hbreak with rfl | rfl
    · exact ⟨_, _, hpairs, hfeeds.hit, (hreturns.miss_char (by decide)).miss_char (by decide)⟩
    · exact ⟨_, _, hpairs, hfeeds.miss_char (by decide), hreturns.hit⟩
  | case4 c rest hpair hbreak ih =>
    obtain ⟨pairs, feeds, hpairs, hfeeds, hreturns⟩ := ih
    simp only [Bool.or_eq_true, beq_iff_eq, not_or] at hbreak
    obtain ⟨hfeed, hreturn⟩ := hbreak
    exact ⟨_, _, hpairs.miss (not_isPrefix_pair hpair), hfeeds.miss_char hfeed,
      hreturns.miss_char hreturn⟩

theorem FoldsBreaks.eq_foldBreaks (h : FoldsBreaks text folded) : folded = foldBreaks text := by
  obtain ⟨pairs, feeds, hpairs, hfeeds, hreturns⟩ := h
  obtain ⟨pairs', feeds', hpairs', hfeeds', hreturns'⟩ := foldsBreaks_foldBreaks text
  obtain rfl := hpairs.unique (by simp) hpairs'
  obtain rfl := hfeeds.unique (by simp) hfeeds'
  exact hreturns.unique (by simp) hreturns'

theorem foldBreaks_append_cons (hfeed : c ≠ '\n') (hreturn : c ≠ '\r') (a b : List Char) :
    foldBreaks (a ++ c :: b) = foldBreaks a ++ c :: foldBreaks b := by
  obtain ⟨pairsA, feedsA, hpairsA, hfeedsA, hreturnsA⟩ := foldsBreaks_foldBreaks a
  obtain ⟨pairsB, feedsB, hpairsB, hfeedsB, hreturnsB⟩ := foldsBreaks_foldBreaks b
  have hwhole : FoldsBreaks (a ++ c :: b) (foldBreaks a ++ c :: foldBreaks b) :=
    ⟨_, _, hpairsA.append_cons (by simp) (by simp [hfeed, hreturn]) hpairsB,
      hfeedsA.append_cons (by simp) (by simp [hfeed]) hfeedsB,
      hreturnsA.append_cons (by simp) (by simp [hreturn]) hreturnsB⟩
  exact hwhole.eq_foldBreaks.symm

theorem breakEnds_append_cons (hc : c ∉ ['*', '/']) (a b : List Char) :
    breakEnds (a ++ c :: b) = breakEnds a ++ c :: breakEnds b :=
  Replaces.unique (by simp) (breaksEnds_breakEnds _)
    ((breaksEnds_breakEnds a).append_cons (by simp) hc (breaksEnds_breakEnds b))

/-- If no comment ends in a text, the end that is put after it is the only one. -/
theorem eq_nil_of_closes_once {text before after : List Char} (htext : ¬ Closes text)
    (h : text ++ [' ', '*', '/'] = before ++ '*' :: '/' :: after) : after = [] := by
  rcases List.eq_nil_or_concat after with rfl | ⟨after, last, rfl⟩
  · rfl
  have hsplit : (text ++ [' ', '*']) ++ ['/'] = (before ++ '*' :: '/' :: after) ++ [last] := by
    simpa using h
  obtain ⟨hcloses, -⟩ := List.append_inj' hsplit rfl
  have hcloses : Closes (text ++ ' ' :: ['*']) := ⟨before, after, by simp [hcloses]⟩
  rw [Closes, pair_infix_append_cons (by decide)] at hcloses
  rcases hcloses with hcloses | hcloses
  · exact (htext hcloses).elim
  · exact (not_closes_of_not_mem (by decide) hcloses).elim

end Comment

-- ---------------------------------------------------------------------------
-- Sections
-- ---------------------------------------------------------------------------

namespace Source

open Text (Unbroken unbroken_ofList)

def Shown (d : Diagnostic) (shown : List Char) : Prop :=
  ∃ folded, Comment.FoldsBreaks d.text.toList folded ∧ Comment.BreaksEnds folded shown

def rowsOf (title : String) : List (List Char) → List (List Char)
  | [] => []
  | texts => (" * " ++ title).toList :: texts.map (" *  - ".toList ++ ·)

/-- The rows of a listing, with one between the sections if there are two. -/
def rows (warnings suggestions : List (List Char)) : List (List Char) :=
  "/*".toList :: rowsOf "Warnings:" warnings ++
    (if warnings ≠ [] ∧ suggestions ≠ [] then [" *".toList] else []) ++
    rowsOf "Suggestions:" suggestions ++ [" */".toList]

def shownText (d : Diagnostic) : List Char := Comment.breakEnds (Comment.foldBreaks d.text.toList)

theorem shown_shownText (d : Diagnostic) : Shown d (shownText d) :=
  ⟨_, Comment.foldsBreaks_foldBreaks _, Comment.breaksEnds_breakEnds _⟩

theorem Shown.eq_shownText (h : Shown d shown) : shown = shownText d := by
  obtain ⟨folded, hfolds, hbreaks⟩ := h
  obtain rfl := hfolds.eq_foldBreaks
  exact hbreaks.unique (by simp) (Comment.breaksEnds_breakEnds _)

theorem map_shownText_of_shown (h : List.Forall₂ Shown ds shown) : shown = ds.map shownText := by
  induction h with
  | nil => rfl
  | cons hfirst _ ih => rw [List.map_cons, hfirst.eq_shownText, ih]

/-- A row shows the message, and after it the remedy in parentheses. Each of them reads there as
it does by itself. -/
theorem shownText_eq (d : Diagnostic) :
    shownText d = Comment.breakEnds (Comment.foldBreaks d.message.toList) ++
      match d.remedy with
      | some remedy =>
        [' ', '('] ++ Comment.breakEnds (Comment.foldBreaks remedy.toList) ++ [')']
      | none => [] := by
  unfold shownText Diagnostic.text
  cases d.remedy with
  | none => rw [List.append_nil]
  | some remedy =>
    have htext : (d.message ++ " (" ++ remedy ++ ")").toList =
        d.message.toList ++ ' ' :: ([] ++ '(' :: (remedy.toList ++ ')' :: [])) := by simp
    simp only [htext, Comment.foldBreaks_append_cons, Comment.breakEnds_append_cons, ne_eq,
      Char.reduceEq, not_false_eq_true, List.mem_cons, List.not_mem_nil, or_self]
    simp [Comment.foldBreaks, Comment.breakEnds]

theorem toList_itemLine (d : Diagnostic) :
    (itemLine d).toList = " *  - ".toList ++ shownText d := by
  simp [itemLine, shownText, Comment.guarded, Comment.oneLine]

theorem map_toList_lines (warnings suggestions : List Diagnostic) :
    (lines warnings suggestions).map String.toList =
      rows (warnings.map shownText) (suggestions.map shownText) := by
  cases warnings <;> cases suggestions <;>
    simp [lines, sectionLines, section?, rows, rowsOf, toList_itemLine, Function.comp_def]

theorem unbroken_itemLine (d : Diagnostic) : Unbroken (itemLine d) := by
  have hfolded := Comment.not_mem_foldBreaks d.text.toList
  refine .append (unbroken_ofList (by decide)) (unbroken_ofList ?_)
  simp only [Comment.oneLine, String.toList_ofList]
  exact ⟨Comment.not_mem_breakEnds (by decide) hfolded.1,
    Comment.not_mem_breakEnds (by decide) hfolded.2⟩

theorem unbroken_heading (h : line ∈ headings) : Unbroken line := by
  simp only [headings, List.mem_cons, List.not_mem_nil, or_false] at h
  rcases h with rfl | rfl | rfl <;> exact unbroken_ofList (by decide)

theorem unbroken_sectionLines {warnings suggestions : List Diagnostic} :
    ∀ line ∈ sectionLines warnings suggestions, Unbroken line := by
  intro line hline
  rcases mem_sectionLines hline with hheading | ⟨d, -, rfl⟩
  · exact unbroken_heading hheading
  · exact unbroken_itemLine d

theorem unbroken_lines {warnings suggestions : List Diagnostic} :
    ∀ line ∈ lines warnings suggestions, Unbroken line := by
  intro line hline
  rw [lines, List.cons_append, List.mem_cons, List.mem_append, List.mem_singleton] at hline
  rcases hline with rfl | hline | rfl
  · exact unbroken_ofList (by decide)
  · exact unbroken_sectionLines line hline
  · exact unbroken_ofList (by decide)

-- ---------------------------------------------------------------------------
-- Listings
-- ---------------------------------------------------------------------------

theorem splitOn_listing (warnings suggestions : List Diagnostic) :
    ("\n".intercalate (lines warnings suggestions)).toList.splitOn '\n' =
      rows (warnings.map shownText) (suggestions.map shownText) := by
  rw [← map_toList_lines]
  refine Text.splitOn_intercalate_lines ?_ (by simp [lines])
  intro line hline
  exact (unbroken_lines line hline).isLine

theorem return_not_mem_listing (warnings suggestions : List Diagnostic) :
    '\r' ∉ ("\n".intercalate (lines warnings suggestions)).toList := by
  rw [lines, Comment.toList_intercalate_lines]
  simp only [List.mem_append, List.mem_cons, List.mem_flatMap]
  rintro (hfirst | hfeed | ⟨line, hline, hreturn | hfeed⟩ | hlast)
  · exact absurd hfirst (by decide)
  · exact absurd hfeed (by decide)
  · exact (unbroken_sectionLines line hline).2 hreturn
  · exact absurd hfeed (by decide)
  · exact absurd hlast (by decide)

/-- The end of the comment is the only `*/` in a listing. -/
theorem eq_nil_of_listing {warnings suggestions : List Diagnostic} {before after : List Char}
    (h : ("\n".intercalate (lines warnings suggestions)).toList = before ++ '*' :: '/' :: after) :
    after = [] := by
  rw [toList_intercalate_listing, ← List.cons_append, ← List.cons_append] at h
  refine Comment.eq_nil_of_closes_once ?_ h
  rw [Comment.Closes, Comment.pair_infix_cons, Comment.pair_infix_cons]
  rintro (⟨hslash, -⟩ | ⟨-, hhead⟩ | hcloses)
  · exact absurd hslash (by decide)
  · exact absurd hhead (by simp [inner])
  · exact not_closes_inner warnings suggestions hcloses

/-- A listing is made of the title of each section with diagnostics and one line for each of them,
in order. No other line is in it but one between the sections, and nothing in it breaks a line
or ends the comment early. -/
theorem listing_rows (warnings suggestions : List Diagnostic)
    (h : warnings ≠ [] ∨ suggestions ≠ []) :
    ∃ listing first second, listing? warnings suggestions = some listing ∧
      List.Forall₂ Shown warnings first ∧ List.Forall₂ Shown suggestions second ∧
      listing.toList.splitOn '\n' = rows first second ∧ '\r' ∉ listing.toList ∧
      ∀ before after, listing.toList = before ++ '*' :: '/' :: after → after = [] := by
  have hshown : ∀ ds : List Diagnostic, List.Forall₂ Shown ds (ds.map shownText) := by
    intro ds
    rw [List.forall₂_map_right_iff, List.forall₂_same]
    exact fun d _ => shown_shownText d
  exact ⟨_, _, _, listing?_eq_some h, hshown warnings, hshown suggestions,
    splitOn_listing warnings suggestions, return_not_mem_listing warnings suggestions,
    fun _ _ => eq_nil_of_listing⟩

def brokenDiagnostic : Diagnostic :=
  { kind := .deprecated, message := "a\r\nb\r", remedy := some "c */\nd" }

theorem listing_rows_broken :
    ([brokenDiagnostic] ≠ [] ∨ [endDiagnostic] ≠ []) ∧
      ∃ listing, listing? [brokenDiagnostic] [endDiagnostic] = some listing ∧
        listing.toList.splitOn '\n' =
          ["/*", " * Warnings:", " *  - a\\nb\\n (c * /\\nd)", " *", " * Suggestions:",
            " *  - a * / b", " */"].map String.toList ∧
        '\r' ∉ listing.toList := by
  have hne : [brokenDiagnostic] ≠ [] ∨ [endDiagnostic] ≠ [] := .inl (List.cons_ne_nil _ _)
  obtain ⟨listing, first, second, hlisting, hfirst, hsecond, hrows, hreturn, -⟩ :=
    listing_rows [brokenDiagnostic] [endDiagnostic] hne
  refine ⟨hne, listing, hlisting, ?_, hreturn⟩
  rw [hrows, map_shownText_of_shown hfirst, map_shownText_of_shown hsecond]
  rfl

end Source

end LayoutCompose
