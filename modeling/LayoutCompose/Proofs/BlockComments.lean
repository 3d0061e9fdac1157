import LayoutCompose.Code.Source
import LayoutCompose.Proofs.Scan

/-!
# Where a block comment ends

Block comments of the generated language nest: a comment that begins inside another one has to end
before it. Text in a comment has every `*/` broken up, so it cannot end the comment, but it is
free to begin one. Then the comment stays open and takes in the code after it.
-/

namespace LayoutCompose

namespace Comment

-- ---------------------------------------------------------------------------
-- Reading nested comments
-- ---------------------------------------------------------------------------

/-- What follows a block comment, read from inside it with `depth` comments open in it. -/
def afterEnd? (depth : Nat) : List Char → Option (List Char)
  | [] => none
  | '/' :: '*' :: rest => afterEnd? (depth + 1) rest
  | '*' :: '/' :: rest => if depth = 0 then some rest else afterEnd? (depth - 1) rest
  | _ :: rest => afterEnd? depth rest

def afterBlock? : List Char → Option (List Char)
  | '/' :: '*' :: inner => afterEnd? 0 inner
  | _ => none

def IsBlock (text : String) : Prop := afterBlock? text.toList = some []

def IsUnended (text : String) : Prop :=
  ['/', '*'] <+: text.toList ∧ afterBlock? text.toList = none

def Opens (text : List Char) : Prop := ['/', '*'] <:+: text

def Closes (text : List Char) : Prop := ['*', '/'] <:+: text

/-- Every mark of a comment has a slash. -/
theorem not_opens_of_not_mem (h : '/' ∉ text) : ¬ Opens text :=
  fun hopens => h (hopens.subset (by simp))

theorem not_closes_of_not_mem (h : '/' ∉ text) : ¬ Closes text :=
  fun hcloses => h (hcloses.subset (by simp))

theorem pair_infix_cons {l : List Char} :
    [a, b] <:+: c :: l ↔ c = a ∧ l.head? = some b ∨ [a, b] <:+: l := by
  have hprefix : [b] <+: l ↔ l.head? = some b := by
    cases l with
    | nil => simp
    | cons d l => simp [eq_comm]
  rw [List.infix_cons_iff, List.cons_prefix_cons, hprefix, eq_comm]

def openings : List Char → Nat
  | [] => 0
  | c :: rest => openings rest + if c = '/' ∧ rest.head? = some '*' then 1 else 0

theorem openings_eq_zero_iff (l : List Char) : openings l = 0 ↔ ¬ Opens l := by
  induction l with
  | nil => simp [openings, Opens]
  | cons c l ih =>
    rw [Opens, pair_infix_cons, openings, Nat.add_eq_zero_iff, ih, not_or, and_comm, Opens]
    simp

theorem afterEnd?_skip {rest : List Char} (hopen : ¬ (c = '/' ∧ rest.head? = some '*'))
    (hclose : ¬ (c = '*' ∧ rest.head? = some '/')) :
    afterEnd? depth (c :: rest) = afterEnd? depth rest := by
  rw [afterEnd?]
  · rintro _ rfl rfl
    exact hopen ⟨rfl, rfl⟩
  · rintro _ rfl rfl
    exact hclose ⟨rfl, rfl⟩

theorem head?_append_cons_ne {a rest : List Char} (ha : a.head? ≠ some x) (hc : c ≠ x) :
    (a ++ c :: rest).head? ≠ some x := by
  cases a with
  | nil => simpa using hc
  | cons d a => exact ha

/-- A text in which no comment ends leaves open what begins in it. -/
theorem afterEnd?_append (ha : ¬ Closes a) (hslash : c ≠ '/') (hstar : c ≠ '*') :
    afterEnd? depth (a ++ c :: rest) = afterEnd? (depth + openings a) (c :: rest) := by
  induction a generalizing depth with
  | nil => rfl
  | cons d a ih =>
    rw [Closes, pair_infix_cons, not_or] at ha
    obtain ⟨hclose, ha⟩ := ha
    have hnext : ¬ (d = '*' ∧ (a ++ c :: rest).head? = some '/') := by
      rintro ⟨rfl, hhead⟩
      exact head?_append_cons_ne (fun h => hclose ⟨rfl, h⟩) hslash hhead
    by_cases hopen : d = '/' ∧ a.head? = some '*'
    · obtain ⟨rfl, hhead⟩ := hopen
      obtain ⟨a, rfl⟩ := List.head?_eq_some_iff.mp hhead
      have hbroken : (a ++ c :: rest).head? ≠ some '/' :=
        head?_append_cons_ne (fun h => ha (pair_infix_cons.mpr (.inl ⟨rfl, h⟩))) hslash
      have hcount : openings ('/' :: '*' :: a) = openings ('*' :: a) + 1 :=
        congrArg (openings ('*' :: a) + ·) (if_pos ⟨rfl, rfl⟩)
      -- The star belongs to the mark that opens, but skipping it changes nothing.
      calc afterEnd? depth ('/' :: '*' :: (a ++ c :: rest))
        _ = afterEnd? (depth + 1) (a ++ c :: rest) := by rw [afterEnd?]
        _ = afterEnd? (depth + 1) ('*' :: a ++ c :: rest) :=
          (afterEnd?_skip (by simp) (fun h => hbroken h.2)).symm
        _ = afterEnd? (depth + openings ('/' :: '*' :: a)) (c :: rest) := by
          rw [ih ha, hcount, Nat.add_assoc, Nat.add_comm 1]
    · have hnone : ¬ (d = '/' ∧ (a ++ c :: rest).head? = some '*') := by
        rintro ⟨rfl, hhead⟩
        exact head?_append_cons_ne (fun h => hopen ⟨rfl, h⟩) hstar hhead
      rw [List.cons_append, afterEnd?_skip hnone hnext, ih ha, openings, if_neg hopen,
        Nat.add_zero]

/-- The end of a comment ends it if nothing else is open. -/
theorem afterBlock?_enclosed {inner : List Char} (hinner : ¬ Closes inner) (hslash : c ≠ '/')
    (hstar : c ≠ '*') :
    afterBlock? ('/' :: '*' :: (inner ++ c :: ['*', '/'])) =
      if openings inner = 0 then some [] else none := by
  rw [afterBlock?, afterEnd?_append hinner hslash hstar, Nat.zero_add,
    afterEnd?_skip (by simp [hslash]) (by simp [hstar]), afterEnd?]
  rfl

-- ---------------------------------------------------------------------------
-- Guarded text
-- ---------------------------------------------------------------------------

theorem head?_breakEnds (l : List Char) : (breakEnds l).head? = l.head? := by
  fun_induction breakEnds l <;> rfl

theorem not_closes_breakEnds (l : List Char) : ¬ Closes (breakEnds l) := by
  fun_induction breakEnds l with
  | case1 => simp [Closes]
  | case2 rest ih =>
    rw [Closes] at ih ⊢
    simp [pair_infix_cons, ih]
  | case3 c rest hend ih =>
    rw [Closes, pair_infix_cons, head?_breakEnds]
    rintro (⟨rfl, hhead⟩ | h)
    · obtain ⟨rest, rfl⟩ := List.head?_eq_some_iff.mp hhead
      exact hend rest rfl rfl
    · exact ih h

theorem opens_breakEnds_iff (l : List Char) : Opens (breakEnds l) ↔ Opens l := by
  fun_induction breakEnds l with
  | case1 => rfl
  | case2 rest ih =>
    rw [Opens, Opens] at ih ⊢
    simp [pair_infix_cons, ih, head?_breakEnds]
  | case3 c rest _ ih =>
    rw [Opens, Opens] at ih ⊢
    rw [pair_infix_cons, pair_infix_cons, ih, head?_breakEnds]

theorem head?_foldBreaks_iff (l : List Char) :
    (foldBreaks l).head? = some '*' ↔ l.head? = some '*' := by
  fun_induction foldBreaks l with
  | case1 => rfl
  | case2 => simp
  | case3 c rest _ hbreak =>
    simp only [Bool.or_eq_true, beq_iff_eq] at hbreak
    rcases hbreak with rfl | rfl <;> simp
  | case4 => simp

theorem opens_foldBreaks_iff (l : List Char) : Opens (foldBreaks l) ↔ Opens l := by
  fun_induction foldBreaks l with
  | case1 => rfl
  | case2 rest ih =>
    rw [Opens, Opens] at ih ⊢
    simp [pair_infix_cons, ih]
  | case3 c rest _ hbreak ih =>
    rw [Opens, Opens] at ih ⊢
    simp only [Bool.or_eq_true, beq_iff_eq] at hbreak
    rcases hbreak with rfl | rfl <;> simp [pair_infix_cons, ih]
  | case4 c rest _ _ ih =>
    rw [Opens, Opens] at ih ⊢
    rw [pair_infix_cons, pair_infix_cons, ih, head?_foldBreaks_iff]

-- ---------------------------------------------------------------------------
-- Texts put together
-- ---------------------------------------------------------------------------

/-- A character that is in neither mark keeps two texts apart. -/
theorem pair_infix_append_cons {l m : List Char} (hc : c ∉ [a, b]) :
    [a, b] <:+: l ++ c :: m ↔ [a, b] <:+: l ∨ [a, b] <:+: m := by
  constructor
  · exact Scan.infix_of_infix_append_cons hc
  · rintro (h | h)
    · exact h.trans (List.prefix_append l _).isInfix
    · exact h.trans ((List.suffix_cons c m).trans (List.suffix_append l _)).isInfix

theorem pair_infix_lines (hc : '\n' ∉ [a, b]) (lines : List String) :
    [a, b] <:+: lines.flatMap (·.toList ++ ['\n']) ↔ ∃ line ∈ lines, [a, b] <:+: line.toList := by
  induction lines with
  | nil => simp
  | cons line lines ih =>
    rw [List.flatMap_cons, List.append_assoc, List.singleton_append, pair_infix_append_cons hc, ih]
    simp

theorem toList_intercalate_lines (first : String) (lines : List String) (last : String) :
    ("\n".intercalate (first :: lines ++ [last])).toList =
      first.toList ++ '\n' :: (lines.flatMap (·.toList ++ ['\n']) ++ last.toList) := by
  induction lines generalizing first with
  | nil => simp [String.intercalate_cons_cons]
  | cons line lines ih =>
    rw [List.cons_append, List.cons_append, String.intercalate_cons_cons, ← List.cons_append,
      String.toList_append, ih]
    simp

/-- A comment around text in which none ends is a whole one or never ends, as no comment or some
comment begins in the text. -/
theorem enclosed_cases {text : String} {inner : List Char}
    (htext : text.toList = '/' :: '*' :: (inner ++ [' ', '*', '/'])) (hinner : ¬ Closes inner) :
    (IsBlock text ↔ ¬ Opens inner) ∧ (IsUnended text ↔ Opens inner) := by
  have hafter : afterBlock? text.toList = if openings inner = 0 then some [] else none := by
    rw [htext]
    exact afterBlock?_enclosed hinner (by decide) (by decide)
  have hstart : ['/', '*'] <+: text.toList := htext ▸ ⟨_, rfl⟩
  have hzero := openings_eq_zero_iff inner
  by_cases h : Opens inner
  · rw [if_neg fun hnone => hzero.mp hnone h] at hafter
    simp [IsBlock, IsUnended, hafter, hstart, h]
  · rw [if_pos (hzero.mpr h)] at hafter
    simp [IsBlock, IsUnended, hafter, h]

theorem guarded_cases (lead : List Char) (hlead : '/' ∉ lead) (l : List Char) :
    ¬ Closes (lead ++ ' ' :: breakEnds l) ∧ (Opens (lead ++ ' ' :: breakEnds l) ↔ Opens l) := by
  constructor
  · rw [Closes, pair_infix_append_cons (by decide)]
    exact not_or.mpr ⟨not_closes_of_not_mem hlead, not_closes_breakEnds l⟩
  · rw [← opens_breakEnds_iff l, Opens, pair_infix_append_cons (by decide)]
    exact or_iff_right (not_opens_of_not_mem hlead)

theorem todo_cases (text : String) :
    (IsBlock (todo text) ↔ ¬ Opens text.toList) ∧ (IsUnended (todo text) ↔ Opens text.toList) := by
  have htext : (todo text).toList =
      '/' :: '*' :: ((" TODO:".toList ++ ' ' :: breakEnds text.toList) ++ [' ', '*', '/']) := by
    simp [todo, guarded]
  obtain ⟨hcloses, hopens⟩ := guarded_cases " TODO:".toList (by decide) text.toList
  rw [← hopens]
  exact enclosed_cases htext hcloses

end Comment

-- ---------------------------------------------------------------------------
-- The listing of diagnostics
-- ---------------------------------------------------------------------------

namespace Source

open Comment (Opens Closes IsBlock IsUnended)

def headings : List String := [" * Warnings:", " * Suggestions:", " *"]

theorem slash_not_mem_heading (h : line ∈ headings) : '/' ∉ line.toList := by
  simp only [headings, List.mem_cons, List.not_mem_nil, or_false] at h
  rcases h with rfl | rfl | rfl <;> decide

theorem mem_sectionLines {warnings suggestions : List Diagnostic}
    (h : line ∈ sectionLines warnings suggestions) :
    line ∈ headings ∨ ∃ d ∈ warnings ++ suggestions, line = itemLine d := by
  cases warnings <;> cases suggestions <;> simp [sectionLines, section?, headings] at h ⊢ <;> grind

theorem itemLine_mem_sectionLines {warnings suggestions : List Diagnostic}
    (h : d ∈ warnings ++ suggestions) : itemLine d ∈ sectionLines warnings suggestions := by
  cases warnings <;> cases suggestions <;> simp [sectionLines, section?] at h ⊢ <;> grind

theorem itemLine_cases (d : Diagnostic) :
    ¬ Closes (itemLine d).toList ∧ (Opens (itemLine d).toList ↔ Opens d.text.toList) := by
  have htext : (itemLine d).toList =
      " *  -".toList ++ ' ' :: Comment.breakEnds (Comment.foldBreaks d.text.toList) := by
    simp [itemLine, Comment.guarded, Comment.oneLine]
  rw [htext, ← Comment.opens_foldBreaks_iff d.text.toList]
  exact Comment.guarded_cases " *  -".toList (by decide) _

/-- What stands between the marks of a listing, but for the blank before the last. -/
def inner (warnings suggestions : List Diagnostic) : List Char :=
  '\n' :: (sectionLines warnings suggestions).flatMap (·.toList ++ ['\n'])

theorem not_closes_inner (warnings suggestions : List Diagnostic) :
    ¬ Closes (inner warnings suggestions) := by
  rw [Closes, inner, Comment.pair_infix_cons, Comment.pair_infix_lines (by decide)]
  rintro (⟨hc, -⟩ | ⟨line, hline, hcloses⟩)
  · exact absurd hc (by decide)
  rcases mem_sectionLines hline with hheading | ⟨d, -, rfl⟩
  · exact Comment.not_closes_of_not_mem (slash_not_mem_heading hheading) hcloses
  · exact (itemLine_cases d).1 hcloses

def lines (warnings suggestions : List Diagnostic) : List String :=
  "/*" :: sectionLines warnings suggestions ++ [" */"]

theorem listing?_eq_some {warnings suggestions : List Diagnostic}
    (h : warnings ≠ [] ∨ suggestions ≠ []) :
    listing? warnings suggestions = some ("\n".intercalate (lines warnings suggestions)) := by
  apply if_neg
  intro hempty
  rw [Bool.and_eq_true, List.isEmpty_iff, List.isEmpty_iff] at hempty
  exact h.elim (· hempty.1) (· hempty.2)

theorem toList_intercalate_listing (warnings suggestions : List Diagnostic) :
    ("\n".intercalate (lines warnings suggestions)).toList =
      '/' :: '*' :: (inner warnings suggestions ++ [' ', '*', '/']) := by
  rw [lines, Comment.toList_intercalate_lines]
  simp [inner]

theorem listing_cases (warnings suggestions : List Diagnostic)
    (h : warnings ≠ [] ∨ suggestions ≠ []) :
    ∃ listing, listing? warnings suggestions = some listing ∧
      (IsBlock listing ↔ ∀ d ∈ warnings ++ suggestions, ¬ Opens d.text.toList) ∧
      (IsUnended listing ↔ ∃ d ∈ warnings ++ suggestions, Opens d.text.toList) := by
  refine ⟨_, listing?_eq_some h, ?_⟩
  have hopens : Opens (inner warnings suggestions) ↔
      ∃ d ∈ warnings ++ suggestions, Opens d.text.toList := by
    rw [Opens, inner, Comment.pair_infix_cons, Comment.pair_infix_lines (by decide)]
    constructor
    · rintro (⟨hc, -⟩ | ⟨line, hline, hopens⟩)
      · exact absurd hc (by decide)
      rcases mem_sectionLines hline with hheading | ⟨d, hd, rfl⟩
      · exact (Comment.not_opens_of_not_mem (slash_not_mem_heading hheading) hopens).elim
      · exact ⟨d, hd, (itemLine_cases d).2.mp hopens⟩
    · rintro ⟨d, hd, hopens⟩
      exact .inr ⟨_, itemLine_mem_sectionLines hd, (itemLine_cases d).2.mpr hopens⟩
  obtain ⟨hblock, hunended⟩ := Comment.enclosed_cases
    (toList_intercalate_listing warnings suggestions) (not_closes_inner warnings suggestions)
  exact ⟨by rw [hblock, hopens]; simp, hunended.trans hopens⟩

/-- A comment on something left to do and a listing of diagnostics never end early. They are whole
block comments if no comment begins in what they show, and do not end at all if one does. -/
theorem isBlock_iff_not_opens (text : String) (warnings suggestions : List Diagnostic) :
    (IsBlock (Comment.todo text) ↔ ¬ Opens text.toList) ∧
    (IsUnended (Comment.todo text) ↔ Opens text.toList) ∧
    (warnings ≠ [] ∨ suggestions ≠ [] →
      ∃ listing, listing? warnings suggestions = some listing ∧
        (IsBlock listing ↔ ∀ d ∈ warnings ++ suggestions, ¬ Opens d.text.toList) ∧
        (IsUnended listing ↔ ∃ d ∈ warnings ++ suggestions, Opens d.text.toList)) := by
  obtain ⟨hblock, hunended⟩ := Comment.todo_cases text
  exact ⟨hblock, hunended, listing_cases warnings suggestions⟩

def endDiagnostic : Diagnostic := { kind := .unsupported, message := "a */ b" }

theorem isBlock_endDiagnostic :
    ([endDiagnostic] ≠ [] ∨ ([] : List Diagnostic) ≠ []) ∧ IsBlock (Comment.todo "*/") ∧
      ∃ listing, listing? [endDiagnostic] [] = some listing ∧ IsBlock listing := by
  have hne : [endDiagnostic] ≠ [] ∨ ([] : List Diagnostic) ≠ [] := .inl (List.cons_ne_nil _ _)
  obtain ⟨htodo, -, hlisting⟩ := isBlock_iff_not_opens "*/" [endDiagnostic] []
  obtain ⟨listing, hlisting, hblock, -⟩ := hlisting hne
  refine ⟨hne, htodo.mpr ((Comment.openings_eq_zero_iff _).mp (by decide)), listing, hlisting,
    hblock.mpr fun d hd => ?_⟩
  obtain rfl := List.mem_singleton.mp hd
  exact (Comment.openings_eq_zero_iff _).mp (by decide)

/-- The beginning of a comment in a text leaves the comment around it open. -/
theorem unended_opening :
    ¬ IsBlock (Comment.todo "/*") ∧
    ∃ listing, listing? [{ kind := .unsupported, message := "/*" }] [] = some listing ∧
      ¬ IsBlock listing := by
  have hopens : Opens "/*".toList := ⟨[], [], by decide⟩
  obtain ⟨listing, hlisting, hblock, -⟩ :=
    listing_cases [{ kind := .unsupported, message := "/*" }] [] (.inl (List.cons_ne_nil _ _))
  refine ⟨fun h => (Comment.todo_cases "/*").1.mp h hopens, listing, hlisting, fun h => ?_⟩
  exact hblock.mp h _ List.mem_cons_self hopens

end Source

end LayoutCompose
