import LayoutCompose.Proofs.LineTexts

/-!
# Line comments end with their line

Text from a layout that stands after `//` has its line breaks folded or dropped, whichever part of
the code writes it. So every line comment takes up one row of the code.
-/

namespace LayoutCompose

open Text (IsLine Unbroken unbroken_ofList)

namespace Stmt

mutual
/-- What a statement says after `//`, in the order in which it is written. A line comment stands
by itself or at the beginning of a block. -/
def notes : Stmt → List String
  | .comment text => [" " ++ text]
  | .call c _ body => (c.content.bind (Text.after? "//")).toList ++ notesOfBody body
  | .item body => notesOfBody body
def notesOfBody : List Stmt → List String
  | [] => []
  | s :: rest => s.notes ++ notesOfBody rest
end

theorem notesOfBody_append (a b : List Stmt) :
    notesOfBody (a ++ b) = notesOfBody a ++ notesOfBody b := by
  induction a with
  | nil => rfl
  | cons s a ih => simp [notesOfBody, ih]

end Stmt

-- ---------------------------------------------------------------------------
-- Rows of comments
-- ---------------------------------------------------------------------------

namespace Line

def unindented (row : List Char) : List Char := row.dropWhile (· == ' ')

def commentRow (note : String) : List Char := '/' :: '/' :: note.toList

/-- Among the rows of the lines are the comments, in order and each on a row of its own. -/
def Displays (lines : List Line) (notes : List String) : Prop :=
  ∀ base, (notes.map commentRow).Sublist ((rows base lines).map unindented)

theorem displays_nil (lines : List Line) : Displays lines [] := fun _ => List.nil_sublist _

theorem Displays.append (ha : Displays a x) (hb : Displays b y) : Displays (a ++ b) (x ++ y) := by
  intro base
  rw [rows_append, List.map_append, List.map_append]
  exact (ha base).append (hb base)

theorem Displays.eq_nil (h : Displays [] notes) : notes = [] := by
  simpa [rows] using h 0

theorem unindented_indentation (n : Nat) (note : String) :
    unindented (indentation n ++ ("//" ++ note)).toList = commentRow note := by
  rw [unindented, String.toList_append, List.dropWhile_append_of_pos]
  · simp [commentRow]
  · intro c hc
    simpa using mem_indentation hc

theorem displays_note (level : Nat) (h : IsLine note) :
    Displays [⟨level, "//" ++ note⟩] [note] := by
  intro base
  rw [rows_singleton base level (.append (Text.isLine_ofList (by decide)) h)]
  rw [List.map_singleton, List.map_singleton, unindented_indentation]

theorem displays_contentLines {call : Call} (level : Nat)
    (h : ∀ note ∈ call.content.bind (Text.after? "//"), Unbroken note) :
    Displays (contentLines level call) (call.content.bind (Text.after? "//")).toList := by
  cases hcontent : call.content with
  | none => exact displays_nil _
  | some content =>
    rw [hcontent, Option.bind_some] at h
    rw [Option.bind_some]
    cases hnote : Text.after? "//" content with
    | none => exact displays_nil _
    | some note =>
      obtain rfl : content = "//" ++ note := Text.after?_eq_some_iff.mp hnote
      have hline : IsLine ("//" ++ note) :=
        .append (Text.isLine_ofList (by decide)) (h note hnote).isLine
      have hlines : contentLines level call = [⟨level, "//" ++ note⟩] := by
        simp only [contentLines, hcontent, split_of_isLine hline (by simp), List.map_singleton]
      rw [hlines]
      exact displays_note level (h note hnote).isLine

/-- A call displays the comment at the beginning of its block and what its body displays. -/
theorem displays_ofCall {call : Call} (level : Nat) (chain : List Modifier)
    (hcontent : ∀ note ∈ call.content.bind (Text.after? "//"), Unbroken note)
    (hbody : Displays body notes) :
    Displays (ofCall level call chain body)
      ((call.content.bind (Text.after? "//")).toList ++ notes) := by
  simp only [ofCall]
  refine (displays_nil _).append ?_
  split
  case isTrue =>
    have hblock := ((displays_contentLines (level + 1) hcontent).append hbody).append
      (displays_nil [⟨level, "\x7d"⟩])
    rwa [List.append_nil] at hblock
  case isFalse hblock =>
    -- a call without a block has neither content nor a body
    have hempty : body = [] ∧ call.content = none := by
      unfold Block.of at hblock
      cases body <;> cases hnone : call.content <;> simp_all
    obtain ⟨rfl, hnone⟩ := hempty
    rw [hnone, hbody.eq_nil]
    exact displays_nil _

end Line

-- ---------------------------------------------------------------------------
-- Trees
-- ---------------------------------------------------------------------------

/-- The comment at the beginning of a block is on one line. -/
theorem Call.unbroken_note (widget : Widget) (ps : Properties) :
    ∀ note ∈ (ofWidget widget ps).content.bind (Text.after? "//"), Unbroken note := by
  intro note hnote
  obtain ⟨content, hcontent, hafter⟩ := Option.bind_eq_some_iff.mp hnote
  have heq := Text.after?_eq_some_iff.mp hafter
  rcases content_cases hcontent with ⟨p, -, rfl⟩ | ⟨text, htext, rfl⟩
  · simp [← String.toList_inj] at heq
  · obtain rfl : note = " " ++ text := by simpa [← String.toList_inj] using heq.symm
    exact .append (unbroken_ofList (by decide)) htext

namespace Stmt

structure Noted (body : List Stmt) : Prop where
  unbroken : ∀ note ∈ notesOfBody body, Unbroken note
  displays : ∀ level, Line.Displays (Line.ofBody level body) (notesOfBody body)

theorem noted_nil : Noted [] where
  unbroken := List.forall_mem_nil _
  displays _ := Line.displays_nil _

theorem Noted.append (ha : Noted a) (hb : Noted b) : Noted (a ++ b) where
  unbroken := by
    rw [notesOfBody_append, List.forall_mem_append]
    exact ⟨ha.unbroken, hb.unbroken⟩
  displays level := by
    rw [notesOfBody_append, Line.ofBody_append]
    exact (ha.displays level).append (hb.displays level)

theorem noted_comment (h : Unbroken text) : Noted [comment text] := by
  have hnote : Unbroken (" " ++ text) := .append (unbroken_ofList (by decide)) h
  constructor
  · simpa [notesOfBody, notes] using hnote
  · intro level
    have hline := Line.displays_note level hnote.isLine
    rw [← String.append_assoc] at hline
    simpa [notesOfBody, notes, Line.ofBody, Line.ofStmt] using hline

theorem noted_remarks (ps : Properties) (call : Call) : Noted (remarks ps call) := by
  unfold remarks
  induction ps.previewComments ++ call.remark.toList with
  | nil => exact noted_nil
  | cons text texts ih => exact (noted_comment (Comment.unbroken_oneLine text)).append ih

theorem noted_ofCall (e : Element) (hbody : Noted body) : Noted (ofCall e body) := by
  have hnote := Call.unbroken_note (Widget.ofTag e.tag) e.properties
  refine (noted_remarks _ _).append ⟨?_, fun level => ?_⟩
  · simp only [notesOfBody, notes, List.append_nil, List.forall_mem_append, Option.mem_toList]
    exact ⟨hnote, hbody.unbroken⟩
  · simp only [notesOfBody, notes, List.append_nil, Line.ofBody, Line.ofStmt]
    exact Line.displays_ofCall level _ hnote (hbody.displays (level + 1))

theorem noted_wrap (items : Bool) (hbody : Noted body) : Noted (wrap items body) := by
  unfold wrap
  split
  · constructor
    · simpa [notesOfBody, notes] using hbody.unbroken
    · intro level
      have hitem := ((Line.displays_nil [⟨level, "item \x7b"⟩]).append
        (hbody.displays (level + 1))).append (Line.displays_nil [⟨level, "\x7d"⟩])
      simpa [notesOfBody, notes, Line.ofBody, Line.ofStmt] using hitem
  · exact hbody

theorem passes_noted : Passes (fun _ body => Noted body) (fun _ _ body => Noted body) where
  included _ := noted_comment (Line.unbroken_includeComment _)
  fragment _ := noted_comment (Line.unbroken_fragmentComment _)
  merged _ hbody := by
    have hcomment : Unbroken mergeComment := unbroken_ofList (by decide)
    exact (noted_comment hcomment).append hbody
  call _ hbody := noted_ofCall _ hbody
  nil := noted_nil
  cons hfirst hothers := (noted_wrap _ hfirst).append hothers

end Stmt

/-- No line comment of the generated code has a line break in it, whatever the layout says, and
each is a row of the code of its own. -/
theorem Element.notes_unbroken {e : Element} (h : e.code maxDepth base = .ok text) :
    ∃ body, Stmt.ofElement maxDepth 1 e = .ok body ∧
      (∀ note ∈ Stmt.notesOfBody body, '\n' ∉ note.toList ∧ '\r' ∉ note.toList) ∧
      ((Stmt.notesOfBody body).map Line.commentRow).Sublist
        ((text.toList.splitOn '\n').map Line.unindented) := by
  rw [code] at h
  split at h <;> cases h
  case h_2 body hbody =>
    have hnoted := Stmt.passes_noted.ofElement e hbody
    refine ⟨body, hbody, hnoted.unbroken, ?_⟩
    change List.Sublist _ (((Line.written base _).toList.splitOn '\n').map Line.unindented)
    rw [Line.splitOn_written, List.map_append]
    exact (hnoted.displays 0 base).trans (List.sublist_append_left _ _)

def brokenForm : Element :=
  ⟨"merge", [], [
    ⟨"include", [⟨"layout", "@layout/top\r\nbar"⟩], []⟩,
    ⟨"fragment", [⟨"android:name", "Map\nFragment"⟩], []⟩,
    ⟨"CheckBox", [⟨"android:text", "Yes\r\nor no"⟩, ⟨"tools:text", "Sample\rtext"⟩], []⟩,
    ⟨"Spinner", [⟨"android:entries", "one\r\ntwo"⟩], []⟩]⟩

theorem Element.notes_brokenForm :
    ∃ text body, brokenForm.code 2 1 = .ok text ∧ Stmt.ofElement 2 1 brokenForm = .ok body ∧
      (Stmt.notesOfBody body).length = 6 ∧
      (∀ note ∈ Stmt.notesOfBody body, '\n' ∉ note.toList ∧ '\r' ∉ note.toList) ∧
      ((Stmt.notesOfBody body).map Line.commentRow).Sublist
        ((text.toList.splitOn '\n').map Line.unindented) := by
  obtain ⟨text, hcode⟩ : ∃ text, brokenForm.code 2 1 = .ok text := ⟨_, rfl⟩
  obtain ⟨body, hbody, hnotes⟩ := Element.notes_unbroken hcode
  have hcount : (Stmt.ofElement 2 1 brokenForm).map (fun b => (Stmt.notesOfBody b).length) =
      .ok 6 := rfl
  rw [hbody] at hcount
  exact ⟨text, body, hcode, hbody, Except.ok.inj hcount, hnotes⟩

end LayoutCompose
