import LayoutCompose.Code.Line
import LayoutCompose.Proofs.CodeText

/-!
# Brackets of generated code

The brackets that a scan meets in code have to nest. A piece of code takes the brackets
that are open before it to those that are open after it, and this does not depend on the
brackets further out.
-/

namespace LayoutCompose

namespace Scan

def closing? : Char → Option Char
  | '(' => some ')'
  | '[' => some ']'
  | '\x7b' => some '\x7d'
  | _ => none

def isClosing (c : Char) : Bool :=
  c == ')' || c == ']' || c == '\x7d'

/-- The closing brackets that are due after a character, the next one first. There is no
result if the character closes nothing or the wrong bracket. -/
def nest (due : List Char) (c : Char) : Option (List Char) :=
  match closing? c with
  | some d => some (d :: due)
  | none =>
    if isClosing c then
      if due.head? == some c then some due.tail else none
    else some due

def nesting (due text : List Char) : Option (List Char) :=
  text.foldlM nest due

/-- A scan ends outside literals and comments, and the brackets that it meets in code are
nested and all closed. -/
def Balanced (text : String) : Prop :=
  (scan .code text.toList).isCode = true ∧ nesting [] (visible .code text.toList) = some []

theorem nesting_append (due a b : List Char) :
    nesting due (a ++ b) = (nesting due a).bind (nesting · b) :=
  List.foldlM_append

theorem nest_frame (h : nest due c = some due') (outer : List Char) :
    nest (due ++ outer) c = some (due' ++ outer) := by
  unfold nest at h ⊢
  split at h
  · cases h
    rfl
  · split at h
    · split at h
      · cases due with
        | nil => simp_all
        | cons d due => simp_all
      · cases h
    · simp_all

theorem nesting_frame (h : nesting due text = some due') (outer : List Char) :
    nesting (due ++ outer) text = some (due' ++ outer) := by
  induction text generalizing due with
  | nil =>
    cases h
    rfl
  | cons c text ih =>
    obtain ⟨next, hnext, htext⟩ := Option.bind_eq_some_iff.mp h
    exact Option.bind_eq_some_iff.mpr ⟨next ++ outer, nest_frame hnext outer, ih htext⟩

-- ---------------------------------------------------------------------------
-- Pieces of code
-- ---------------------------------------------------------------------------

/-- Code that takes the brackets to be closed from `due` to `due'`. -/
structure Turns (due : List Char) (text : String) (due' : List Char) : Prop where
  scan : scan .code text.toList = .code
  nesting : nesting due (visible .code text.toList) = some due'

instance (due : List Char) (text : String) (due' : List Char) : Decidable (Turns due text due') :=
  decidable_of_iff (Scan.scan .code text.toList = .code ∧
      Scan.nesting due (visible .code text.toList) = some due')
    ⟨fun h => ⟨h.1, h.2⟩, fun h => ⟨h.scan, h.nesting⟩⟩

theorem Turns.append (ha : Turns due a due') (hb : Turns due' b due'') :
    Turns due (a ++ b) due'' where
  scan := by rw [String.toList_append, scan_append, ha.scan, hb.scan]
  nesting := by
    rw [String.toList_append, visible_append, nesting_append, ha.nesting, ha.scan]
    exact hb.nesting

theorem Turns.frame (h : Turns due text due') (outer : List Char) :
    Turns (due ++ outer) text (due' ++ outer) :=
  ⟨h.scan, nesting_frame h.nesting outer⟩

theorem Turns.balanced (h : Turns [] text []) : Balanced text :=
  ⟨by rw [h.scan]; rfl, h.nesting⟩

/-- Code that closes what it opens and breaks lines in literals and comments only. -/
structure Complete (text : String) : Prop extends Turns [] text [] where
  hidesBreaks : hidesBreaks .code text.toList = true

instance (text : String) : Decidable (Complete text) :=
  decidable_of_iff (Turns [] text [] ∧ hidesBreaks .code text.toList = true)
    ⟨fun h => ⟨h.1, h.2⟩, fun h => ⟨h.toTurns, h.hidesBreaks⟩⟩

theorem Complete.turns (h : Complete text) (due : List Char) : Turns due text due := by
  simpa using h.toTurns.frame due

theorem complete_of_shows (h : Shows text shown) (hnesting : nesting [] shown = some []) :
    Complete text :=
  ⟨⟨h.scan, by rw [h.visible, hnesting]⟩, h.hidesBreaks⟩

theorem complete_ofList (h : scan .code l = .code ∧ nesting [] (visible .code l) = some [] ∧
    hidesBreaks .code l = true) : Complete (String.ofList l) := by
  rw [← String.toList_ofList (l := l)] at h
  exact ⟨⟨h.1, h.2.1⟩, h.2.2⟩

theorem Complete.append (ha : Complete a) (hb : Complete b) : Complete (a ++ b) where
  toTurns := ha.toTurns.append hb.toTurns
  hidesBreaks := by
    rw [String.toList_append, hidesBreaks_append, ha.scan, ha.hidesBreaks, hb.hidesBreaks]
    rfl

def Wraps (before after : String) : Prop :=
  Plain before ∧ Plain after ∧
    (nesting [] before.toList).bind (nesting · after.toList) = some []

theorem wraps_ofList (h : (∀ c ∈ a, isPlain c = true) ∧ (∀ c ∈ b, isPlain c = true) ∧
    (nesting [] a).bind (nesting · b) = some []) : Wraps (String.ofList a) (String.ofList b) := by
  rwa [Wraps, Plain, Plain, String.toList_ofList, String.toList_ofList]

theorem Complete.wrap (hwraps : Wraps before after) (h : Complete code) :
    Complete (before ++ code ++ after) := by
  obtain ⟨hbefore, hafter, hnesting⟩ := hwraps
  obtain ⟨due, hopen, hclose⟩ := Option.bind_eq_some_iff.mp hnesting
  have hbefore := hbefore.shows
  have hafter := hafter.shows
  have hopen : Turns [] before due := ⟨hbefore.scan, by rw [hbefore.visible, hopen]⟩
  have hclose : Turns due after [] := ⟨hafter.scan, by rw [hafter.visible, hclose]⟩
  refine ⟨(hopen.append (h.turns due)).append hclose, ?_⟩
  simp only [String.toList_append, hidesBreaks_append, scan_append, hbefore.scan, h.scan,
    hbefore.hidesBreaks, h.hidesBreaks, hafter.hidesBreaks, Bool.and_self]

theorem complete_quote (raw : String) : Complete (Literal.quote raw) :=
  complete_of_shows (shows_quote raw) (by decide)

theorem complete_todo (task : String) : Complete (Comment.todo task) :=
  complete_of_shows (shows_todo task) (by decide)

def isFlat (c : Char) : Bool :=
  isPlain c && (closing? c).isNone && !isClosing c

theorem complete_of_flat {text : String} (h : ∀ c ∈ text.toList, isFlat c = true) :
    Complete text := by
  have hplain : Plain text := by
    intro c hc
    have hc := h c hc
    simp only [isFlat, Bool.and_eq_true] at hc
    exact hc.1.1
  refine complete_of_shows hplain.shows ?_
  generalize text.toList = l at h
  induction l with
  | nil => rfl
  | cons c l ih =>
    obtain ⟨hc, hl⟩ := List.forall_mem_cons.mp h
    have hnest : nest [] c = some [] := by
      simp only [isFlat, Bool.and_eq_true, Option.isNone_iff_eq_none, Bool.not_eq_true'] at hc
      simp [nest, hc]
    exact Option.bind_eq_some_iff.mpr ⟨[], hnest, ih hl⟩

theorem isFlat_of_isAlphanum (h : c.isAlphanum = true) : isFlat c = true := by
  have hne : ∀ d, d.isAlphanum = false → c ≠ d := by
    rintro d hd rfl
    simp [h] at hd
  have hclosing : closing? c = none := by
    unfold closing?
    split
    case h_4 => rfl
    all_goals exact absurd h (by decide)
  simp [isFlat, isPlain, isClosing, hclosing, hne]

theorem isFlat_of_isNumeralChar (h : Number.isNumeralChar c = true) : isFlat c = true := by
  simp only [Number.isNumeralChar, Bool.or_eq_true, beq_iff_eq] at h
  rcases h with ((hdigit | rfl) | rfl) | rfl
  · exact isFlat_of_isAlphanum (by simp [Char.isAlphanum, hdigit])
  all_goals decide

end Scan

-- ---------------------------------------------------------------------------
-- Lines
-- ---------------------------------------------------------------------------

def Text.IsLine (text : String) : Prop := '\n' ∉ text.toList

theorem Text.IsLine.append (ha : IsLine a) (hb : IsLine b) : IsLine (a ++ b) := by
  rw [IsLine, String.toList_append, List.mem_append, not_or]
  exact ⟨ha, hb⟩

theorem Text.isLine_ofList (h : '\n' ∉ l) : IsLine (String.ofList l) := by
  rwa [IsLine, String.toList_ofList]

theorem Text.splitOn_intercalate_lines {lines : List String}
    (hlines : ∀ line ∈ lines, IsLine line) (hne : lines ≠ []) :
    ("\n".intercalate lines).toList.splitOn '\n' = lines.map String.toList := by
  rw [String.toList_intercalate]
  exact List.splitOn_intercalate '\n' (List.forall_mem_map.mpr hlines) (by simpa using hne)

def Text.Unbroken (text : String) : Prop := '\n' ∉ text.toList ∧ '\r' ∉ text.toList

theorem Text.Unbroken.isLine (h : Unbroken text) : IsLine text := h.1

theorem Text.Unbroken.append (ha : Unbroken a) (hb : Unbroken b) : Unbroken (a ++ b) := by
  simp only [Unbroken, String.toList_append, List.mem_append, not_or]
  exact ⟨⟨ha.1, hb.1⟩, ha.2, hb.2⟩

theorem Text.unbroken_ofList (h : '\n' ∉ l ∧ '\r' ∉ l) : Unbroken (String.ofList l) := by
  rwa [Unbroken, String.toList_ofList]

namespace Line

open Scan

variable {base level : Nat} {text : String}

def written (base : Nat) (lines : List Line) : String :=
  String.join (lines.map (render base))

theorem written_append (base : Nat) (a b : List Line) :
    written base (a ++ b) = written base a ++ written base b := by
  rw [written, List.map_append, String.join_append]
  rfl

theorem written_singleton (base : Nat) (line : Line) : written base [line] = render base line := by
  simp [written, String.join_cons]

theorem written_cons (base : Nat) (line : Line) (lines : List Line) :
    written base (line :: lines) = render base line ++ written base lines := by
  rw [← List.singleton_append, written_append, written_singleton]

/-- An argument stands on its line with or without a comma. -/
theorem forall_argumentLines {P : String → Prop} {texts : List String}
    (h : ∀ text ∈ texts, P text ∧ P (text ++ ",")) :
    ∀ line ∈ argumentLines level more texts, P line.text := by
  induction texts with
  | nil => simp [argumentLines]
  | cons text texts ih =>
    obtain ⟨⟨halone, hcomma⟩, htexts⟩ := List.forall_mem_cons.mp h
    rw [argumentLines, List.forall_mem_cons]
    refine ⟨?_, ih htexts⟩
    dsimp only
    split
    · exact halone
    · exact hcomma

theorem forall_modifierLines {P : String → Prop} {chain : List Modifier}
    (hstart : P "modifier = Modifier")
    (hinline : P ("modifier = Modifier" ++ Modifier.inlineCode chain))
    (hcode : ∀ m ∈ chain, P m.code) : ∀ line ∈ modifierLines level chain, P line.text := by
  unfold modifierLines
  split
  · simp
  split
  · exact List.forall_mem_singleton.mpr hinline
  · rw [List.forall_mem_cons, List.forall_mem_map]
    exact ⟨hstart, hcode⟩

theorem mem_indentation (h : c ∈ (indentation n).toList) : c = ' ' := by
  rw [indentation, String.toList_ofList] at h
  exact List.eq_of_mem_replicate h

theorem complete_indentation (n : Nat) : Complete (indentation n) := by
  refine complete_of_flat fun c hc => ?_
  rw [mem_indentation hc]
  decide

theorem turns_append (ha : Turns due (written base a) due')
    (hb : Turns due' (written base b) due'') : Turns due (written base (a ++ b)) due'' := by
  rw [written_append]
  exact ha.append hb

theorem turns_line (h : Turns due text due') : Turns due (written base [⟨level, text⟩]) due' := by
  have hfeed : Turns [] "\n" [] := by decide
  rw [written_singleton, render]
  exact (((complete_indentation _).turns due).append h).append (hfeed.frame due')

theorem turns_complete {lines : List Line} (h : ∀ line ∈ lines, Complete line.text) :
    Turns due (written base lines) due := by
  induction lines with
  | nil => exact ⟨rfl, rfl⟩
  | cons line lines ih =>
    obtain ⟨hline, hlines⟩ := List.forall_mem_cons.mp h
    exact turns_append (a := [line]) (turns_line (hline.turns due)) (ih hlines)

theorem turns_comment (h : Text.IsLine text) :
    Turns due (written base [⟨level, "// " ++ text⟩]) due := by
  have hinside : ∀ l : List Char, '\n' ∉ l →
      scan .line (l ++ ['\n']) = .code ∧ visible .line (l ++ ['\n']) = [] := by
    intro l hl
    induction l with
    | nil => decide
    | cons c l ih =>
      simp only [List.mem_cons, not_or] at hl
      have hnext : Mode.next .line c = .line := by simp [Mode.next, Ne.symm hl.1]
      simpa [scan_cons, visible, Mode.isCode, hnext] using ih hl.2
  have hcomment : Turns [] ("// " ++ text ++ "\n") [] := by
    obtain ⟨hscan, hvisible⟩ := hinside text.toList h
    have htext : ("// " ++ text ++ "\n").toList = ['/', '/', ' '] ++ (text.toList ++ ['\n']) := by
      simp
    have hstart : scan .code ['/', '/', ' '] = .line ∧
        visible .code ['/', '/', ' '] = ['/', '/'] := by
      decide
    constructor
    · rw [htext, scan_append, hstart.1, hscan]
    · rw [htext, visible_append, hstart.1, hstart.2, hvisible]
      decide
  rw [written_singleton, render, String.append_assoc]
  exact ((complete_indentation _).turns due).append (by simpa using hcomment.frame due)

-- ---------------------------------------------------------------------------
-- Code that is split into lines again
-- ---------------------------------------------------------------------------

/-- Pieces of code on lines of their own, from the first character of the first piece to
the last character of the last one. -/
def reflow (indent : List Char) : List (List Char) → List Char
  | [] => []
  | [piece] => piece
  | piece :: next :: rest =>
    split.dropReturn piece ++ ('\n' :: indent) ++ reflow indent (next :: rest)

/-- A break with the indentation after it is lost in the literal or comment that holds it. -/
theorem inside_break {m : Mode} {indent : List Char} (hm : m.holdsBreaks = true)
    (hindent : ∀ c ∈ indent, c = ' ') : Inside m ('\n' :: indent) (m.next '\n') := by
  have hnext : m.next '\n' = .literal ∨ m.next '\n' = .block := by
    cases m <;> simp_all [Mode.holdsBreaks, Mode.next]
  have hspaces : Inside (m.next '\n') indent (m.next '\n') := by
    induction indent with
    | nil => exact ⟨rfl, rfl, rfl⟩
    | cons c indent ih =>
      obtain ⟨rfl, hrest⟩ := List.forall_mem_cons.mp hindent
      have hspace : Inside (m.next '\n') [' '] (m.next '\n') := by
        rcases hnext with h | h <;> rw [h] <;> decide
      exact hspace.append (ih hrest)
  exact (inside_single hm '\n').append hspaces

/-- A carriage return that ends a line may as well be missing. -/
theorem scan_dropReturn (h : hidesBreaks m piece = true)
    (hm : (scan m piece).holdsBreaks = true) :
    (scan m (split.dropReturn piece)).holdsBreaks = true ∧
      (scan m (split.dropReturn piece)).next '\n' = (scan m piece).next '\n' ∧
      visible m (split.dropReturn piece) = visible m piece := by
  unfold split.dropReturn
  split
  case isFalse => exact ⟨hm, rfl, rfl⟩
  case isTrue hreturn =>
    obtain ⟨start, rfl⟩ := List.getLast?_eq_some_iff.mp (beq_iff_eq.mp hreturn)
    rw [List.dropLast_concat]
    rw [hidesBreaks_append] at h
    have hhold : (scan m start).holdsBreaks = true := by
      simpa [hidesBreaks] using (Bool.and_eq_true_iff.mp h).2
    have hinside := inside_single hhold '\r'
    refine ⟨hhold, ?_, ?_⟩
    · rw [scan_append, hinside.scan]
      cases hmode : scan m start <;> simp_all [Mode.holdsBreaks] <;> rfl
    · rw [visible_append, hinside.visible, List.append_nil]

theorem scan_reflow {indent : List Char} (hindent : ∀ c ∈ indent, c = ' ')
    (pieces : List (List Char)) (h : hidesBreaks m (['\n'].intercalate pieces) = true) :
    scan m (reflow indent pieces) = scan m (['\n'].intercalate pieces) ∧
      visible m (reflow indent pieces) = visible m (['\n'].intercalate pieces) := by
  fun_induction reflow indent pieces generalizing m with
  | case1 => exact ⟨rfl, rfl⟩
  | case2 piece => simp
  | case3 piece next rest ih =>
    rw [List.intercalate_cons_cons] at h ⊢
    simp only [hidesBreaks_append, Bool.and_eq_true] at h
    obtain ⟨⟨hpiece, hfeed⟩, hrest⟩ := h
    have hm : (scan m piece).holdsBreaks = true := by simpa [hidesBreaks] using hfeed
    obtain ⟨hhold, hnext, hvisible⟩ := scan_dropReturn hpiece hm
    have hbreak := inside_break hhold hindent
    have hsingle := inside_single hm '\n'
    rw [scan_append m piece, hsingle.scan] at hrest
    obtain ⟨hscan, hshown⟩ := ih hrest
    constructor
    · simp only [scan_append, hbreak.scan, hsingle.scan, hnext, hscan]
    · simp only [scan_append, visible_append, hbreak.scan, hbreak.visible, hsingle.scan,
        hsingle.visible, hnext, hvisible, hshown]

theorem flatMap_lines (indent : List Char) (pieces : List (List Char))
    (hlast : pieces.getLastD [] ≠ []) :
    (pieces.dropLast.map split.dropReturn ++ split.lastLine (pieces.getLastD [])).flatMap
        (fun line => indent ++ line ++ ['\n']) =
      indent ++ reflow indent pieces ++ ['\n'] := by
  fun_induction reflow indent pieces with
  | case1 => simp at hlast
  | case2 piece =>
    have hpiece : piece ≠ [] := by simpa using hlast
    simp [split.lastLine, hpiece]
  | case3 piece next rest ih =>
    have hrest : (piece :: next :: rest).getLastD [] = (next :: rest).getLastD [] := by
      simp only [List.getLastD_cons]
    rw [hrest] at hlast ⊢
    rw [List.dropLast_cons_cons, List.map_cons, List.cons_append, List.flatMap_cons, ih hlast]
    simp

theorem written_split (hlast : (text.toList.splitOn '\n').getLastD [] ≠ []) :
    written base ((split text).map fun line => ⟨level, line⟩) =
      written base [⟨level, String.ofList
        (reflow (indentation (base + level)).toList (text.toList.splitOn '\n'))⟩] := by
  rw [← String.toList_inj, written_singleton, written, String.toList_join, split]
  simp only [List.map_map, List.flatMap_map]
  simpa [render] using flatMap_lines (indentation (base + level)).toList _ hlast

theorem intercalate_of_last {pieces : List (List Char)} (hlast : pieces.getLastD [] = []) :
    ['\n'].intercalate pieces = [] ∨ ∃ start, ['\n'].intercalate pieces = start ++ ['\n'] := by
  -- `reflow` recurses on all pieces but the last, as joining them does
  fun_induction reflow [] pieces with
  | case1 => exact .inl rfl
  | case2 piece =>
    have hpiece : piece = [] := by simpa using hlast
    exact .inl (by simp [hpiece])
  | case3 piece next rest ih =>
    have hrest : (next :: rest).getLastD [] = [] := by simpa only [List.getLastD_cons] using hlast
    rw [List.intercalate_cons_cons]
    rcases ih hrest with hempty | ⟨start, hstart⟩
    · exact .inr ⟨piece, by rw [hempty, List.append_nil]⟩
    · exact .inr ⟨piece ++ ['\n'] ++ start, by rw [hstart, List.append_assoc _ start]⟩

/-- Complete code does not end with a line break, which would be in a literal or comment. -/
theorem getLastD_splitOn_ne_nil (h : Complete text) (hne : text ≠ "") :
    (text.toList.splitOn '\n').getLastD [] ≠ [] := by
  intro hlast
  have hbreaks := h.hidesBreaks
  have hscan := h.scan
  rcases intercalate_of_last hlast with hempty | ⟨start, hstart⟩
  · rw [List.intercalate_splitOn] at hempty
    exact hne (String.toList_inj.mp hempty)
  · rw [List.intercalate_splitOn] at hstart
    rw [hstart, hidesBreaks_append, Bool.and_eq_true] at hbreaks
    rw [hstart, scan_append] at hscan
    have hhold : (scan .code start).holdsBreaks = true := by simpa [hidesBreaks] using hbreaks.2
    cases hmode : scan .code start <;> simp_all [Mode.holdsBreaks, scan, Mode.next]

theorem turns_split (h : Complete text) :
    Turns due (written base ((split text).map fun line => ⟨level, line⟩)) due := by
  by_cases hne : text = ""
  · subst hne
    exact ⟨rfl, rfl⟩
  rw [written_split (getLastD_splitOn_ne_nil h hne)]
  have hbreaks : hidesBreaks .code (['\n'].intercalate (text.toList.splitOn '\n')) = true := by
    rw [List.intercalate_splitOn]
    exact h.hidesBreaks
  obtain ⟨hscan, hvisible⟩ := scan_reflow (fun _ => mem_indentation (n := base + level)) _ hbreaks
  rw [List.intercalate_splitOn] at hscan hvisible
  have hcontent := h.turns due
  refine turns_line ⟨?_, ?_⟩
  · rw [String.toList_ofList, hscan, hcontent.scan]
  · rw [String.toList_ofList, hvisible, hcontent.nesting]

theorem split_of_isLine (h : Text.IsLine text) (hne : text ≠ "") : split text = [text] := by
  have hfree : ∀ piece ∈ [text.toList], '\n' ∉ piece := List.forall_mem_singleton.mpr h
  have hpieces := List.splitOn_intercalate '\n' hfree (List.cons_ne_nil _ _)
  rw [List.intercalate_singleton] at hpieces
  have hchars : text.toList ≠ [] := by simpa using hne
  simp [split, hpieces, split.lastLine, hchars]

end Line

end LayoutCompose
