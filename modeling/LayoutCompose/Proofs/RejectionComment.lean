import LayoutCompose.Proofs.BalancedCode
import LayoutCompose.Proofs.Rejection
import Mathlib.Data.List.Forall2

/-!
# The comment above a stub

The code of a rejected layout starts with the reason in a line comment. The reason may repeat
names of the source. The name of an element ends at the first space and never breaks the line,
but the name in a closing tag and the name of an entity are repeated as they stand: the comment
holds the whole reason exactly if that name has no line break. With breaks, the lines above the
imports are still comments if the later lines of the name are comments themselves.
-/

namespace LayoutCompose

-- ---------------------------------------------------------------------------
-- Texts on one line
-- ---------------------------------------------------------------------------

namespace Text

theorem isLine_append_iff : IsLine (a ++ b) ↔ IsLine a ∧ IsLine b := by
  rw [IsLine, IsLine, IsLine, String.toList_append, List.mem_append, not_or]

/-- A text between two others that have no line break. -/
theorem isLine_between_iff (hlead : IsLine lead) (htail : IsLine tail) :
    IsLine (lead ++ text ++ tail) ↔ IsLine text := by
  rw [isLine_append_iff, isLine_append_iff]
  exact ⟨fun h => h.1.2, fun h => ⟨⟨hlead, h⟩, htail⟩⟩

theorem isLine_nat (n : Nat) : IsLine (toString n) := by
  intro h
  have hdigit := Number.isDigit_of_mem_nat h
  revert hdigit
  decide

theorem isLine_number (hlead : IsLine lead) (n : Nat) (htail : IsLine tail) :
    IsLine (lead ++ toString n ++ tail) :=
  (isLine_between_iff hlead htail).mpr (isLine_nat n)

theorem isLine_numbers (hlead : IsLine lead) (m : Nat) (hmiddle : IsLine middle) (n : Nat)
    (htail : IsLine tail) : IsLine (lead ++ toString m ++ middle ++ toString n ++ tail) :=
  isLine_number (isLine_number hlead m hmiddle) n htail

theorem isLine_takeWhile_space (cs : List Char) :
    IsLine (String.ofList (cs.takeWhile (!Markup.isSpace ·))) := by
  refine isLine_ofList fun h => ?_
  have hspace := List.mem_takeWhile_imp h
  revert hspace
  decide

-- ---------------------------------------------------------------------------
-- Texts on several lines
-- ---------------------------------------------------------------------------

theorem splitOn_append_left {lead l : List Char} (h : c ∉ lead) :
    (lead ++ l).splitOn c = (l.splitOn c).modifyHead (lead ++ ·) := by
  induction lead with
  | nil => exact List.modifyHead_id.symm ▸ rfl
  | cons d lead ih =>
    rw [List.mem_cons, not_or] at h
    rw [List.cons_append, List.splitOn_cons_eq_if_modifyHead, if_neg (by simpa using Ne.symm h.1),
      ih h.2, List.modifyHead_modifyHead]
    rfl

theorem splitOn_of_not_mem {l : List Char} (h : c ∉ l) : l.splitOn c = [l] := by
  simpa using splitOn_append_left (l := []) h

theorem forall₂_splitOn_append {tail : List Char} (h : c ∉ tail) (l : List Char) :
    List.Forall₂ (fun a b => a = b ∨ a = b ++ tail) ((l ++ tail).splitOn c) (l.splitOn c) := by
  induction l with
  | nil => simp [splitOn_of_not_mem h]
  | cons d l ih =>
    rw [List.cons_append, List.splitOn_cons_eq_if_modifyHead, List.splitOn_cons_eq_if_modifyHead]
    split
    · exact .cons (.inl rfl) ih
    · generalize (l ++ tail).splitOn c = longer at ih ⊢
      generalize l.splitOn c = shorter at ih ⊢
      cases ih with
      | nil => exact .nil
      | cons hfirst hrest =>
        refine .cons ?_ hrest
        rcases hfirst with rfl | rfl <;> simp

theorem pieces_append (a b : String) :
    pieces '\n' (a ++ "\n" ++ b) = pieces '\n' a ++ pieces '\n' b := by
  have htext : (a ++ "\n" ++ b).toList = a.toList ++ '\n' :: b.toList := by simp
  rw [pieces, htext, List.splitOn_append_cons_self, List.map_append]
  rfl

theorem pieces_of_isLine (h : IsLine line) : pieces '\n' line = [line] := by
  rw [pieces, splitOn_of_not_mem h, List.map_singleton, String.ofList_toList]

theorem pieces_line (hline : IsLine line) (rest : String) :
    pieces '\n' (line ++ "\n" ++ rest) = line :: pieces '\n' rest := by
  rw [pieces_append, pieces_of_isLine hline, List.singleton_append]

theorem exists_pieces_append_left (h : IsLine lead) (text : String) :
    ∃ first later, pieces '\n' text = first :: later ∧
      pieces '\n' (lead ++ text) = (lead ++ first) :: later := by
  rw [pieces, pieces, String.toList_append, splitOn_append_left h]
  cases hsplit : text.toList.splitOn '\n' with
  | nil => exact (List.splitOn_ne_nil _ _ hsplit).elim
  | cons first later =>
    refine ⟨String.ofList first, later.map String.ofList, rfl, ?_⟩
    rw [List.modifyHead_cons, List.map_cons, String.ofList_append, String.ofList_toList]

/-- A text at the end of a line that never completes a mark at its start: neither the slashes of
a comment nor the word of an import. -/
structure Trails (tail : String) : Prop where
  isLine : IsLine tail
  head : ∀ c ∈ tail.toList.head?, c ∉ "//".toList ∧ c ∉ "import ".toList

theorem trails_ofList {l : List Char} (hline : '\n' ∉ c :: l)
    (hhead : c ∉ "//".toList ∧ c ∉ "import ".toList) : Trails (String.ofList (c :: l)) := by
  refine ⟨isLine_ofList hline, ?_⟩
  rw [String.toList_ofList, List.head?_cons]
  rintro _ ⟨⟩
  exact hhead

theorem startsWith_append_of_head? {lead tail : String}
    (h : ∀ c ∈ tail.toList.head?, c ∉ lead.toList) (text : String) :
    startsWith lead (text ++ tail) = startsWith lead text := by
  rw [startsWith, startsWith, String.toList_append]
  generalize lead.toList = cs at h
  induction text.toList generalizing cs with
  | nil =>
    rw [List.nil_append]
    generalize tail.toList = l at h
    cases cs with
    | nil => rfl
    | cons c cs =>
      cases l with
      | nil => rfl
      | cons d l =>
        have hne : c ≠ d := fun heq => h d rfl (heq ▸ List.mem_cons_self)
        simp [List.isPrefixOf, hne]
  | cons d l ih =>
    cases cs with
    | nil => rfl
    | cons c cs =>
      have hcs : ∀ c ∈ tail.toList.head?, c ∉ cs :=
        fun c hc hmem => h c hc (List.mem_cons_of_mem _ hmem)
      rw [List.cons_append, List.isPrefixOf, List.isPrefixOf, ih cs hcs]

def laterLines (text : String) : List String :=
  (pieces '\n' text).tail.takeWhile (!startsWith "import " ·)

def LaterComments (text : String) : Prop :=
  ∀ line ∈ laterLines text, startsWith "//" line = true

theorem laterComments_of_isLine (h : IsLine line) : LaterComments line := by
  rw [LaterComments, laterLines, pieces_of_isLine h]
  exact fun _ hmem => nomatch hmem

theorem laterLines_append_left (h : IsLine lead) (text : String) :
    laterLines (lead ++ text) = laterLines text := by
  obtain ⟨first, later, htext, hwhole⟩ := exists_pieces_append_left h text
  rw [laterLines, laterLines, htext, hwhole]
  rfl

theorem forall_takeWhile_congr {p q : α → Bool} {l m : List α}
    (h : List.Forall₂ (fun a b => p a = p b ∧ q a = q b) l m) :
    (∀ a ∈ l.takeWhile p, q a = true) ↔ ∀ b ∈ m.takeWhile p, q b = true := by
  induction h with
  | nil => rfl
  | cons hfirst _ ih =>
    rw [List.takeWhile_cons, List.takeWhile_cons, hfirst.1]
    split
    · rw [List.forall_mem_cons, List.forall_mem_cons, hfirst.2, ih]
    · rfl

theorem laterComments_append_iff (htail : Trails tail) (text : String) :
    LaterComments (text ++ tail) ↔ LaterComments text := by
  refine forall_takeWhile_congr ?_
  rw [pieces, pieces, String.toList_append, ← List.map_tail, ← List.map_tail,
    List.forall₂_map_left_iff, List.forall₂_map_right_iff, ← List.drop_one, ← List.drop_one]
  refine (List.forall₂_drop 1 (forall₂_splitOn_append htail.isLine text.toList)).imp ?_
  rintro a b (rfl | rfl)
  · exact ⟨rfl, rfl⟩
  · rw [String.ofList_append, String.ofList_toList,
      startsWith_append_of_head? fun c hc => (htail.head c hc).1,
      startsWith_append_of_head? fun c hc => (htail.head c hc).2]
    exact ⟨rfl, rfl⟩

theorem laterComments_between_iff (hlead : IsLine lead) (htail : Trails tail) :
    LaterComments (lead ++ text ++ tail) ↔ LaterComments text := by
  rw [laterComments_append_iff htail, LaterComments, laterLines_append_left hlead]
  rfl

end Text

-- ---------------------------------------------------------------------------
-- Messages
-- ---------------------------------------------------------------------------

namespace Markup

open Text

theorem ReferenceFault.isLine_message (fault : ReferenceFault) : IsLine fault.message := by
  cases fault with
  | notCharacter code =>
    exact isLine_number (isLine_ofList (by decide)) code (isLine_ofList (by decide))
  | _ => exact isLine_ofList (by decide)

namespace Fault

/-- The text of the source that the message repeats as it stands: the name in a closing tag
or the name of an entity. -/
def quoted? : Fault → Option String
  | mismatchedClose _ found | unmatchedClose found | strayClose found | crossedClose _ found =>
    some found
  | entityUnknown _ _ name => some name
  | _ => none

/-- What else a message names is on one line: the tags of elements, and a quote. -/
def NamesLines : Fault → Prop
  | mismatchedClose expected _ | crossedClose expected _ => IsLine expected
  | neverClosed tag => IsLine tag
  | quoteMissing _ quote => quote ≠ '\n'
  | _ => True

theorem isLine_notFound (hwhat : IsLine what) (hclosing : IsLine closing) :
    IsLine (notFound what closing) :=
  ((((Text.isLine_ofList (by decide)).append hwhat).append (Text.isLine_ofList (by decide))).append
    hclosing).append (Text.isLine_ofList (by decide))

theorem isLine_message_of_quoted?_eq_none {fault : Fault} (h : fault.NamesLines)
    (hquoted : fault.quoted? = none) : IsLine fault.message := by
  cases fault with
  | mismatchedClose | unmatchedClose | strayClose | crossedClose | entityUnknown => cases hquoted
  | neverClosed tag =>
    exact (isLine_between_iff (isLine_ofList (by decide)) (isLine_ofList (by decide))).mpr h
  | quoteMissing position quote =>
    have hstart : IsLine ("position " ++ toString position ++ ": missing closing quote `") :=
      isLine_number (isLine_ofList (by decide)) position (isLine_ofList (by decide))
    exact (hstart.append (isLine_ofList (by simpa using Ne.symm h))).append
      (isLine_ofList (by decide))
  | keyWithoutEquals position | valueMissing position | valueUnquoted position =>
    exact isLine_number (isLine_ofList (by decide)) position (isLine_ofList (by decide))
  | entityUnterminated start stop =>
    exact isLine_numbers (isLine_ofList (by decide)) start (isLine_ofList (by decide)) stop
      (isLine_ofList (by decide))
  | reference fault => exact (isLine_ofList (by decide)).append fault.isLine_message
  | unclosedInstruction | unclosedComment | unclosedDoctype | unclosedCharacterData | unclosedTag =>
    exact isLine_notFound (isLine_ofList (by decide)) (isLine_ofList (by decide))
  | unknownDeclaration | doctypeWithoutName | secondRoot => exact isLine_ofList (by decide)

theorem message_of_quoted? {fault : Fault} (h : fault.NamesLines)
    (hquoted : fault.quoted? = some name) :
    ∃ lead tail, fault.message = lead ++ name ++ tail ∧ IsLine lead ∧ Trails tail := by
  cases fault with
  | mismatchedClose expected found =>
    cases hquoted
    exact ⟨"ill-formed document: expected `</" ++ expected ++ ">`, but `</", ">` was found", rfl,
      (isLine_between_iff (isLine_ofList (by decide)) (isLine_ofList (by decide))).mpr h,
      trails_ofList (by decide) (by decide)⟩
  | unmatchedClose found =>
    cases hquoted
    exact ⟨_, _, rfl, isLine_ofList (by decide), trails_ofList (by decide) (by decide)⟩
  | strayClose found =>
    cases hquoted
    exact ⟨_, _, rfl, isLine_ofList (by decide), trails_ofList (by decide) (by decide)⟩
  | crossedClose expected found =>
    cases hquoted
    exact ⟨"expected </" ++ expected ++ ">, found </", ">", rfl,
      (isLine_between_iff (isLine_ofList (by decide)) (isLine_ofList (by decide))).mpr h,
      trails_ofList (by decide) (by decide)⟩
  | entityUnknown start stop name =>
    cases hquoted
    exact ⟨"at " ++ toString start ++ ".." ++ toString stop ++ ": unrecognized entity `", "`", rfl,
      isLine_numbers (isLine_ofList (by decide)) start (isLine_ofList (by decide)) stop
        (isLine_ofList (by decide)), trails_ofList (by decide) (by decide)⟩
  | _ => cases hquoted

end Fault

end Markup

namespace LayoutError

def quoted? : LayoutError → Option String
  | malformed fault _ => fault.quoted?
  | _ => none

def NamesLines : LayoutError → Prop
  | malformed fault _ => fault.NamesLines
  | _ => True

theorem message_malformed (fault : Markup.Fault) (here : Location) :
    ∃ place, message (malformed fault here) = place ++ fault.message ∧ Text.IsLine place :=
  ⟨"[Line " ++ toString here.line ++ ":" ++ toString here.column ++ "] ", rfl,
    Text.isLine_numbers (Text.isLine_ofList (by decide)) _ (Text.isLine_ofList (by decide)) _
      (Text.isLine_ofList (by decide))⟩

theorem isLine_message_of_quoted?_eq_none {error : LayoutError} (h : error.NamesLines)
    (hquoted : error.quoted? = none) : Text.IsLine error.message := by
  cases error with
  | malformed fault here =>
    obtain ⟨place, hmessage, hplace⟩ := message_malformed fault here
    exact hmessage ▸ hplace.append (Markup.Fault.isLine_message_of_quoted?_eq_none h hquoted)
  | noRoot => exact Text.isLine_ofList (by decide)
  | tooDeep limit | tooLarge limit =>
    exact Text.isLine_number (Text.isLine_ofList (by decide)) limit (Text.isLine_ofList (by decide))

theorem message_of_quoted? {error : LayoutError} (h : error.NamesLines)
    (hquoted : error.quoted? = some name) :
    ∃ lead tail, error.message = lead ++ name ++ tail ∧ Text.IsLine lead ∧ Text.Trails tail := by
  cases error with
  | malformed fault here =>
    obtain ⟨place, hplaced, hplace⟩ := message_malformed fault here
    obtain ⟨lead, tail, hmessage, hlead, htail⟩ := Markup.Fault.message_of_quoted? h hquoted
    refine ⟨place ++ lead, tail, ?_, hplace.append hlead, htail⟩
    rw [hplaced, hmessage]
    simp only [String.append_assoc]
  | _ => cases hquoted

theorem isLine_message_iff {error : LayoutError} (h : error.NamesLines) :
    Text.IsLine error.message ↔ ∀ name ∈ error.quoted?, Text.IsLine name := by
  cases hquoted : error.quoted? with
  | none => simp [isLine_message_of_quoted?_eq_none h hquoted]
  | some name =>
    obtain ⟨lead, tail, hmessage, hlead, htail⟩ := message_of_quoted? h hquoted
    rw [hmessage, Text.isLine_between_iff hlead htail.isLine]
    simp

theorem laterComments_message_iff {error : LayoutError} (h : error.NamesLines) :
    Text.LaterComments error.message ↔ ∀ name ∈ error.quoted?, Text.LaterComments name := by
  cases hquoted : error.quoted? with
  | none => simp [Text.laterComments_of_isLine (isLine_message_of_quoted?_eq_none h hquoted)]
  | some name =>
    obtain ⟨lead, tail, hmessage, hlead, htail⟩ := message_of_quoted? h hquoted
    rw [hmessage, Text.laterComments_between_iff hlead htail]
    simp

end LayoutError

-- ---------------------------------------------------------------------------
-- Faults in tags
-- ---------------------------------------------------------------------------

namespace Markup

theorem namesLines_of_entity (h : entity position name = .error fault) : fault.NamesLines := by
  unfold entity at h
  split at h
  · cases hcharacter : characterOf _ with
    | error fault => rw [hcharacter] at h; cases h; trivial
    | ok c => rw [hcharacter] at h; cases h
  · split at h <;> cases h
    trivial

theorem namesLines_of_expandFrom (h : expandFrom length position cs = .error fault) :
    fault.NamesLines := by
  fun_induction expandFrom length position cs with
  | case1 | case4 => cases h
  | case2 =>
    rename_i hentity
    cases h
    exact namesLines_of_entity hentity
  | case3 =>
    rename_i hrest ih
    cases h
    exact ih hrest
  | case5 =>
    cases h
    trivial

theorem namesLines_of_readValue (h : readValue key position cs = .error fault) :
    fault.NamesLines := by
  simp only [readValue] at h
  split at h
  · cases h
    trivial
  · split at h
    · rename_i hquote
      split at h <;> cases h
      rintro rfl
      revert hquote
      decide
    · cases h
      trivial

theorem namesLines_of_readAttribute (h : readAttribute position first cs = .error fault) :
    fault.NamesLines := by
  simp only [readAttribute] at h
  split at h
  · exact namesLines_of_readValue h
  · cases h
    trivial

theorem namesLines_of_readAttributes (h : readAttributes position cs = .error fault) :
    fault.NamesLines := by
  fun_induction readAttributes position cs with
  | case1 | case5 => cases h
  | case2 =>
    rename_i hattribute
    cases h
    exact namesLines_of_readAttribute hattribute
  | case3 =>
    rename_i hvalue
    cases h
    exact namesLines_of_expandFrom hvalue
  | case4 =>
    rename_i hrest ih
    cases h
    exact ih hrest

theorem namesLines_of_elementOf (h : elementOf content = .error fault) : fault.NamesLines := by
  simp only [elementOf] at h
  split at h <;> cases h
  exact namesLines_of_readAttributes ‹_›

theorem isLine_tag_of_elementOf (h : elementOf content = .ok e) : Text.IsLine e.tag := by
  simp only [elementOf] at h
  split at h <;> cases h
  exact Text.isLine_takeWhile_space content

-- ---------------------------------------------------------------------------
-- Faults of a reader
-- ---------------------------------------------------------------------------

namespace Reader

def LineNames (unclosed : List String) : Prop := ∀ name ∈ unclosed, Text.IsLine name

def StaysInLines : Except Located (Event × Reader) → Prop
  | .error (fault, _) => fault.NamesLines
  | .ok (_, r) => LineNames r.unclosed

theorem readDeclaration_staysInLines {names : List String} (hnames : LineNames names) :
    StaysInLines (readDeclaration start names cs) := by
  unfold readDeclaration
  repeat' split
  all_goals first | exact hnames | trivial

theorem readInstruction_staysInLines {names : List String} (hnames : LineNames names) :
    StaysInLines (readInstruction start names cs) := by
  unfold readInstruction
  repeat' split
  all_goals first | exact hnames | trivial

theorem readClosing_staysInLines {names : List String} (hnames : LineNames names) :
    StaysInLines (readClosing start names cs) := by
  unfold readClosing
  cases Ending.tag.split cs with
  | none => trivial
  | some found =>
    cases names with
    | nil => trivial
    | cons innermost outer =>
      obtain ⟨hinnermost, houter⟩ := List.forall_mem_cons.mp hnames
      simp only
      split
      · exact houter
      · exact hinnermost

theorem readOpening_staysInLines {names : List String} (hnames : LineNames names) :
    StaysInLines (readOpening start names cs) := by
  unfold readOpening
  split
  · trivial
  split
  · exact hnames
  · exact List.forall_mem_cons.mpr ⟨Text.isLine_takeWhile_space _, hnames⟩

theorem readMarkup_staysInLines {names : List String} (start : Nat) (cs : List Char)
    (hnames : LineNames names) : StaysInLines (readMarkup start names cs) := by
  unfold readMarkup
  split
  · trivial
  · exact readDeclaration_staysInLines hnames
  · exact readInstruction_staysInLines hnames
  · exact readClosing_staysInLines hnames
  · exact readOpening_staysInLines hnames

/-- A step ends the text, takes a piece of markup or passes over some text. -/
theorem next_cases (r : Reader) :
    r.next = .ok none ∨ (∃ start cs, r.next = (readMarkup start r.unclosed cs).map some) ∨
      ∃ r', r.next = .ok (some (.ignored, r')) ∧ r'.unclosed = r.unclosed := by
  simp only [next]
  split
  · exact .inl rfl
  split
  · rename_i c cs _ _
    refine .inr (.inl ⟨r.offset + Text.byteLength (r.rest.takeWhile isSpace), cs, ?_⟩)
    split <;> rename_i h <;> rw [h] <;> rfl
  · exact .inr (.inr ⟨_, rfl, rfl⟩)

theorem next_eq_error {r : Reader} (h : r.next = .error located) :
    ∃ start cs, readMarkup start r.unclosed cs = .error located := by
  obtain hend | ⟨start, cs, hmarkup⟩ | ⟨r', htext, -⟩ := r.next_cases
  · cases hend.symm.trans h
  · refine ⟨start, cs, ?_⟩
    rw [hmarkup] at h
    cases hread : readMarkup start r.unclosed cs with
    | error located' => rw [hread] at h; cases h; rfl
    | ok found => rw [hread] at h; cases h
  · cases htext.symm.trans h

theorem next_eq_some {r r' : Reader} (h : r.next = .ok (some (event, r'))) :
    (∃ start cs, readMarkup start r.unclosed cs = .ok (event, r')) ∨
      event = .ignored ∧ r'.unclosed = r.unclosed := by
  obtain hend | ⟨start, cs, hmarkup⟩ | ⟨r'', htext, hunclosed⟩ := r.next_cases
  · cases hend.symm.trans h
  · refine .inl ⟨start, cs, ?_⟩
    rw [hmarkup] at h
    cases hread : readMarkup start r.unclosed cs with
    | error located => rw [hread] at h; cases h
    | ok found => rw [hread] at h; cases h; rfl
  · cases htext.symm.trans h
    exact .inr ⟨rfl, hunclosed⟩

theorem unclosed_ofSource (source : String) : (ofSource source).unclosed = [] := by
  unfold ofSource
  repeat' split
  all_goals rfl

theorem namesLines_of_next {r : Reader} {place : Nat} (hnames : LineNames r.unclosed)
    (h : r.next = .error (fault, place)) : fault.NamesLines := by
  obtain ⟨start, cs, hread⟩ := next_eq_error h
  have hstays := readMarkup_staysInLines start cs hnames
  rw [hread] at hstays
  exact hstays

theorem lineNames_of_next {r r' : Reader} (hnames : LineNames r.unclosed)
    (h : r.next = .ok (some (event, r'))) : LineNames r'.unclosed := by
  obtain ⟨start, cs, hread⟩ | ⟨-, hunclosed⟩ := next_eq_some h
  · have hstays := readMarkup_staysInLines start cs hnames
    rw [hread] at hstays
    exact hstays
  · exact hunclosed ▸ hnames

end Reader

end Markup

-- ---------------------------------------------------------------------------
-- Faults of a reading
-- ---------------------------------------------------------------------------

namespace Assembly

def LineTags (a : Assembly) : Prop := ∀ e ∈ a.stack, Text.IsLine e.tag

theorem LineTags.attach {a : Assembly} (h : a.LineTags) (e : Element) : (a.attach e).LineTags := by
  unfold Assembly.attach
  split
  · exact h
  · rename_i top outer hstack
    rw [LineTags, hstack] at h
    obtain ⟨htop, houter⟩ := List.forall_mem_cons.mp h
    exact List.forall_mem_cons.mpr ⟨htop, houter⟩

theorem namesLines_of_makeRoom {a : Assembly} (h : a.makeRoom limits source offset = .error error) :
    error.NamesLines := by
  simp only [makeRoom] at h
  repeat' split at h
  all_goals cases h
  all_goals trivial

theorem namesLines_of_enter {a : Assembly}
    (h : a.enter limits source offset content = .error error) :
    error.NamesLines := by
  unfold enter at h
  split at h
  · cases h
    exact Markup.namesLines_of_elementOf ‹_›
  split at h <;> cases h
  exact namesLines_of_makeRoom ‹_›

theorem namesLines_of_add {a : Assembly} (ha : a.LineTags)
    (h : a.add limits source offset event = .error error) : error.NamesLines := by
  cases event with
  | ignored => cases h
  | opening content | childless content =>
    simp only [add] at h
    split at h <;> cases h
    exact namesLines_of_enter ‹_›
  | closing name =>
    simp only [add] at h
    split at h
    · cases h
      trivial
    · rename_i top outer hstack
      split at h <;> cases h
      exact ha top (by simp [hstack])

theorem LineTags.add {a a' : Assembly} (ha : a.LineTags)
    (h : a.add limits source offset event = .ok a') : a'.LineTags := by
  cases event with
  | ignored =>
    cases h
    exact ha
  | opening content =>
    rw [add_opening] at h
    obtain ⟨e, he, -, rfl⟩ := enter_map_eq_ok h
    exact List.forall_mem_cons.mpr ⟨Markup.isLine_tag_of_elementOf he, ha⟩
  | childless content =>
    rw [add_childless] at h
    obtain ⟨e, -, -, rfl⟩ := enter_map_eq_ok h
    exact LineTags.attach (a := a.counted) ha e
  | closing name =>
    simp only [Assembly.add] at h
    split at h
    · cases h
    · rename_i top outer hstack
      rw [LineTags, hstack] at ha
      split at h <;> cases h
      exact LineTags.attach (a := { a with stack := outer }) (List.forall_mem_cons.mp ha).2
        top.close

end Assembly

namespace Document

theorem namesLines_of_readFrom (hr : Markup.Reader.LineNames r.unclosed) (ha : Assembly.LineTags a)
    (h : readFrom limits source r a = .error error) : error.NamesLines := by
  fun_induction readFrom limits source r a with
  | case1 r a fault place hnext =>
    cases h
    exact Markup.Reader.namesLines_of_next hr hnext
  | case2 r a hnext =>
    unfold Assembly.finish at h
    split at h
    · rename_i top outer hstack
      cases h
      exact ha top (by simp [hstack])
    · split at h <;> cases h
      trivial
  | case3 r a event r' hnext hlt error' hadd =>
    cases h
    exact Assembly.namesLines_of_add ha hadd
  | case4 r a event r' hnext hlt a' hadd ih =>
    exact ih (Markup.Reader.lineNames_of_next hr hnext) (ha.add hadd) h

theorem namesLines_of_read (h : read limits source = .error error) : error.NamesLines := by
  have hunclosed := Markup.Reader.unclosed_ofSource source
  refine namesLines_of_readFrom (hunclosed ▸ ?_) ?_ h <;> exact fun _ hmem => nomatch hmem

end Document

-- ---------------------------------------------------------------------------
-- The first lines of a stub
-- ---------------------------------------------------------------------------

namespace Source

def preamble (code : String) : List String :=
  (Text.pieces '\n' code).takeWhile (!Text.startsWith "import " ·)

/-- Nothing but line comments stands before the imports, and one of them is the message. -/
def Heads (message code : String) : Prop :=
  (∀ line ∈ preamble code, Text.startsWith "//" line = true) ∧ "// " ++ message ∈ preamble code

end Source

namespace Conversion

theorem stub_eq (error : LayoutError) (function : String) :
    ∃ rest, stub error function = "// " ++ headline error ++ "\n" ++ ("// " ++ hint error ++ "\n" ++
      ("import androidx.compose.material3.Text" ++ "\n" ++ rest)) := by
  have hbreak : "\n// " = "\n" ++ "// " := rfl
  have himports :
      "\nimport androidx.compose.material3.Text\nimport androidx.compose.runtime.Composable\n\n" =
        "\n" ++ "import androidx.compose.material3.Text" ++ "\n" ++
          "import androidx.compose.runtime.Composable\n\n" := rfl
  rw [stub, hbreak, himports]
  simp only [String.append_assoc]
  exact ⟨_, rfl⟩

theorem headline_eq (error : LayoutError) :
    ∃ lead, headline error = lead ++ error.message ∧ Text.IsLine lead := by
  rw [headline]
  split <;> exact ⟨_, rfl, Text.isLine_ofList (by decide)⟩

theorem isLine_headline_iff (error : LayoutError) :
    Text.IsLine (headline error) ↔ Text.IsLine error.message := by
  obtain ⟨lead, hheadline, hlead⟩ := headline_eq error
  rw [hheadline, Text.isLine_append_iff]
  exact and_iff_right hlead

theorem isLine_hint (error : LayoutError) : Text.IsLine (hint error) := by
  unfold hint
  split <;> exact Text.isLine_ofList (by decide)

theorem startsWith_comment (text : String) :
    Text.startsWith "//" ("// " ++ text) = true ∧
      Text.startsWith "import " ("// " ++ text) = false := by
  rw [Text.startsWith, Text.startsWith, String.toList_append]
  exact ⟨rfl, rfl⟩

/-- The hint is the last line before the imports. -/
theorem takeWhile_hint (error : LayoutError) (rest : String) :
    (Text.pieces '\n' ("// " ++ hint error ++ "\n" ++
      ("import androidx.compose.material3.Text" ++ "\n" ++ rest))).takeWhile
        (!Text.startsWith "import " ·) = ["// " ++ hint error] := by
  have himport : Text.startsWith "import " "import androidx.compose.material3.Text" = true := by
    decide
  rw [Text.pieces_line (.append (Text.isLine_ofList (by decide)) (isLine_hint error)),
    Text.pieces_line (Text.isLine_ofList (by decide))]
  simp [startsWith_comment, himport]

theorem preamble_stub (h : Text.IsLine (headline error)) (function : String) :
    Source.preamble (stub error function) = ["// " ++ headline error, "// " ++ hint error] := by
  have hslashes : Text.IsLine "// " := Text.isLine_ofList (by decide)
  obtain ⟨rest, hstub⟩ := stub_eq error function
  rw [Source.preamble, hstub, Text.pieces_line (hslashes.append h),
    List.takeWhile_cons_of_pos (by simp [startsWith_comment]), takeWhile_hint]

theorem heads_stub_iff (error : LayoutError) (function : String) :
    Source.Heads (headline error) (stub error function) ↔ Text.IsLine (headline error) := by
  constructor
  · rintro ⟨-, hmem⟩
    obtain ⟨piece, hpiece, htext⟩ := List.mem_map.mp ((List.takeWhile_prefix _).subset hmem)
    have hfree : '\n' ∉ piece := Text.not_mem_splitOnP (.inl (by decide)) piece hpiece
    have hline : Text.IsLine ("// " ++ headline error) := htext ▸ Text.isLine_ofList hfree
    exact (Text.isLine_append_iff.mp hline).2
  · intro h
    rw [Source.Heads, preamble_stub h]
    simp [startsWith_comment]

theorem forall_preamble_stub_iff (error : LayoutError) (function : String) :
    (∀ line ∈ Source.preamble (stub error function), Text.startsWith "//" line = true) ↔
      Text.LaterComments (headline error) := by
  have hslashes : Text.IsLine "// " := Text.isLine_ofList (by decide)
  obtain ⟨rest, hstub⟩ := stub_eq error function
  obtain ⟨first, later, hpieces, hcommented⟩ :=
    Text.exists_pieces_append_left hslashes (headline error)
  rw [Text.LaterComments, Text.laterLines, hpieces, List.tail_cons, Source.preamble, hstub,
    Text.pieces_append, hcommented, List.cons_append,
    List.takeWhile_cons_of_pos (by simp [startsWith_comment]), List.takeWhile_append,
    takeWhile_hint, List.forall_mem_cons, and_iff_right (startsWith_comment first).1]
  -- The hint is reached only if no line of the message reads as an import.
  split
  case isTrue hall =>
    rw [(List.takeWhile_prefix _).eq_of_length hall, List.forall_mem_append,
      List.forall_mem_singleton, and_iff_left (startsWith_comment _).1]
  case isFalse => rfl

/-- Nothing but comments stands above the imports if and only if the later lines of what the
reason repeats of the source are comments themselves. A name with slashes after its line break
is the one that divides the reason and is not seen from the lines alone. -/
theorem comments_ofSource_iff (options : Options) (source : String)
    (h : Document.read options.limits source = .error error) :
    (∀ line ∈ Source.preamble (ofSource options source).code, Text.startsWith "//" line = true) ↔
      ∀ name ∈ error.quoted?, Text.LaterComments name := by
  obtain ⟨lead, hheadline, hlead⟩ := headline_eq error
  rw [ofSource_of_error h, ← LayoutError.laterComments_message_iff (Document.namesLines_of_read h)]
  refine (forall_preamble_stub_iff error options.function).trans ?_
  rw [hheadline, Text.LaterComments, Text.laterLines_append_left hlead]
  rfl

/-- The reason stands in a comment as a whole if and only if what it repeats of the source has
no line break. -/
theorem heads_ofSource_iff (options : Options) (source : String)
    (h : (ofSource options source).isFailure = true) :
    ∃ error, Document.read options.limits source = .error error ∧
      (Source.Heads (headline error) (ofSource options source).code ↔
        ∀ name ∈ error.quoted?, Text.IsLine name) := by
  cases hread : Document.read options.limits source with
  | ok d => simp [isFailure_of_ok hread] at h
  | error error =>
    refine ⟨error, rfl, ?_⟩
    have hnames := Document.namesLines_of_read hread
    rw [ofSource_of_error hread, ← LayoutError.isLine_message_iff hnames, ← isLine_headline_iff]
    exact heads_stub_iff error options.function

theorem heads_unknownEntity :
    Document.read {} "<a k='&b;'/>" = .error (.malformed (.entityUnknown 1 2 "b") ⟨1, 1⟩) ∧
      Source.Heads (headline (.malformed (.entityUnknown 1 2 "b") ⟨1, 1⟩))
        (ofSource {} "<a k='&b;'/>").code := by
  have hread : Document.read {} "<a k='&b;'/>" =
      .error (.malformed (.entityUnknown 1 2 "b") ⟨1, 1⟩) := by
    with_unfolding_all rfl
  have hfailure : (ofSource {} "<a k='&b;'/>").isFailure = true := by
    rw [ofSource_of_error hread, isFailure_ofError]
  obtain ⟨error, herror, hiff⟩ := heads_ofSource_iff {} _ hfailure
  obtain rfl : .malformed (.entityUnknown 1 2 "b") ⟨1, 1⟩ = error :=
    Except.error.inj (hread.symm.trans herror)
  refine ⟨hread, hiff.mpr ?_⟩
  rintro name ⟨⟩
  exact Text.isLine_ofList (by decide)

/-- A line break in the name of a closing tag takes the reason out of its comment. -/
theorem preamble_brokenClose :
    Name.checkFunction ({} : Options).function = .ok () ∧
      (ofSource {} "</a\nb>").isFailure = true ∧
      ∃ line ∈ Source.preamble (ofSource {} "</a\nb>").code, Text.startsWith "//" line = false := by
  have hread : Document.read {} "</a\nb>" =
      .error (.malformed (.unmatchedClose "a\nb") ⟨1, 1⟩) := by
    with_unfolding_all rfl
  have hheadline : "// " ++ headline (.malformed (.unmatchedClose "a\nb") ⟨1, 1⟩) =
      "// XML parse error: [Line 1:1] ill-formed document: close tag `</a" ++ "\n" ++
        "b>` does not match any open tag" := rfl
  have hcode : ∃ rest, (ofSource {} "</a\nb>").code =
      "// XML parse error: [Line 1:1] ill-formed document: close tag `</a" ++ "\n" ++
        ("b>` does not match any open tag" ++ "\n" ++ rest) := by
    obtain ⟨rest, hstub⟩ :=
      stub_eq (.malformed (.unmatchedClose "a\nb") ⟨1, 1⟩) ({} : Options).function
    rw [ofSource_of_error hread, ofError, hstub, hheadline]
    simp only [String.append_assoc]
    exact ⟨_, rfl⟩
  refine ⟨by decide, by rw [ofSource_of_error hread, isFailure_ofError],
    "b>` does not match any open tag", ?_, by decide⟩
  obtain ⟨rest, hcode⟩ := hcode
  have hcomment : Text.startsWith "import "
      "// XML parse error: [Line 1:1] ill-formed document: close tag `</a" = false := by decide
  have hspill : Text.startsWith "import " "b>` does not match any open tag" = false := by decide
  rw [Source.preamble, hcode, Text.pieces_line (Text.isLine_ofList (by decide)),
    Text.pieces_line (Text.isLine_ofList (by decide))]
  simp [hcomment, hspill]

end Conversion

end LayoutCompose
