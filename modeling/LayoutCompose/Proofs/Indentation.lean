import LayoutCompose.Proofs.CallShape

/-!
# Indentation of generated code

Code that starts some levels deeper is the same code with spaces in front of every line. The levels
of a statement, of the lines of its head and of all statements in its block move together, so it
makes no difference whether a whole text is moved or an element stands deeper in it. A value with a
line feed would break up a line, and its second half would not move.
-/

namespace LayoutCompose

-- ---------------------------------------------------------------------------
-- Lines of texts
-- ---------------------------------------------------------------------------

namespace Text

/-- The lines of a text, each with the line feed at its end. What follows the last line feed is a
line without one. -/
def lines : List Char → List (List Char)
  | [] => []
  | c :: rest =>
    if c = '\n' then [c] :: lines rest
    else match lines rest with
      | [] => [[c]]
      | line :: others => (c :: line) :: others

def indented (n : Nat) (text : String) : String :=
  String.ofList ((lines text.toList).flatMap (List.replicate n ' ' ++ ·))

theorem lines_append_feed {l : List Char} (h : '\n' ∉ l) (rest : List Char) :
    lines (l ++ '\n' :: rest) = (l ++ ['\n']) :: lines rest := by
  induction l with
  | nil => simp [lines]
  | cons c l ih =>
    rw [List.mem_cons, not_or] at h
    simp [lines, Ne.symm h.1, ih h.2]

def NotBlank (text : String) : Prop := ∃ c ∈ text.toList, c ≠ ' '

theorem notBlank_ofList (h : l.any (· != ' ') = true) : NotBlank (String.ofList l) := by
  rw [NotBlank, String.toList_ofList]
  simpa using h

theorem NotBlank.before (h : NotBlank text) (rest : String) : NotBlank (text ++ rest) := by
  obtain ⟨c, hc, hspace⟩ := h
  exact ⟨c, by simp [hc], hspace⟩

theorem NotBlank.after (h : NotBlank text) (lead : String) : NotBlank (lead ++ text) := by
  obtain ⟨c, hc, hspace⟩ := h
  exact ⟨c, by simp [hc], hspace⟩

theorem Starts.notBlank (h : Starts c text) (hc : c ≠ ' ') : NotBlank text :=
  ⟨c, List.mem_of_head? h, hc⟩

end Text

open Text (IsLine NotBlank isLine_ofList notBlank_ofList)

-- ---------------------------------------------------------------------------
-- Levels
-- ---------------------------------------------------------------------------

namespace Line

def deeper (k : Nat) (line : Line) : Line := ⟨line.level + k, line.text⟩

theorem render_deeper (base k : Nat) (line : Line) :
    render base (line.deeper k) = render (base + k) line := by
  have hlevel : base + (line.level + k) = base + k + line.level := by omega
  rw [render, render, deeper, hlevel]

theorem written_deeper (base k : Nat) (lines : List Line) :
    written base (lines.map (deeper k)) = written (base + k) lines := by
  rw [written, written, List.map_map]
  congr 1
  exact List.map_congr_left fun line _ => render_deeper base k line

theorem argumentLines_deeper (level k : Nat) (more : Bool) (texts : List String) :
    argumentLines (level + k) more texts = (argumentLines level more texts).map (deeper k) := by
  induction texts with
  | nil => rfl
  | cons text texts ih => simp [argumentLines, ih, deeper]

theorem modifierLines_deeper (level k : Nat) (chain : List Modifier) :
    modifierLines (level + k) chain = (modifierLines level chain).map (deeper k) := by
  unfold modifierLines
  split
  · rfl
  split
  · rfl
  · simp [deeper, Nat.add_right_comm]

theorem headLines_deeper (level k : Nat) (call : Call) (chain : List Modifier) (block : Block) :
    headLines (level + k) call chain block =
      (headLines level call chain block).map (deeper k) := by
  unfold headLines
  split
  · rw [Nat.add_right_comm, argumentLines_deeper, modifierLines_deeper]
    simp [deeper]
  · rfl

theorem contentLines_deeper (level k : Nat) (call : Call) :
    contentLines (level + k) call = (contentLines level call).map (deeper k) := by
  unfold contentLines
  split
  · simp [deeper, Function.comp_def]
  · rfl

theorem ofCall_deeper (level k : Nat) (call : Call) (chain : List Modifier) (body : List Line) :
    ofCall (level + k) call chain (body.map (deeper k)) =
      (ofCall level call chain body).map (deeper k) := by
  simp only [ofCall, List.isEmpty_map, headLines_deeper, List.map_append]
  split
  · rw [Nat.add_right_comm, contentLines_deeper]
    simp [deeper]
  · rfl

mutual

/-- A statement that stands deeper moves with all its lines. -/
theorem ofStmt_deeper (level k : Nat) :
    (s : Stmt) → ofStmt (level + k) s = (ofStmt level s).map (deeper k)
  | .comment text => rfl
  | .call c chain body => by
    rw [ofStmt, ofStmt, Nat.add_right_comm, ofBody_deeper (level + 1) k body, ofCall_deeper]
  | .item body => by
    rw [ofStmt, ofStmt, Nat.add_right_comm, ofBody_deeper (level + 1) k body]
    simp [deeper]

theorem ofBody_deeper (level k : Nat) :
    (body : List Stmt) → ofBody (level + k) body = (ofBody level body).map (deeper k)
  | [] => rfl
  | s :: rest => by
    rw [ofBody, ofBody, ofStmt_deeper level k s, ofBody_deeper level k rest, List.map_append]

end

-- ---------------------------------------------------------------------------
-- Texts of lines
-- ---------------------------------------------------------------------------

theorem notBlank_argumentTexts (call : Call) : ∀ text ∈ argumentTexts call, NotBlank text := by
  unfold argumentTexts
  rw [List.forall_mem_map]
  intro a _
  have hsign : NotBlank " = " := notBlank_ofList (by decide)
  exact (hsign.after a.1).before a.2

theorem notBlank_callTexts (e : Element) (chain : List Modifier) :
    CallTexts NotBlank e.call chain where
  opening := (notBlank_ofList (by decide)).after _
  whole block := .after (by cases block <;> exact notBlank_ofList (by decide)) _
  argument text htext :=
    have hfilled := notBlank_argumentTexts e.call text htext
    ⟨hfilled, hfilled.before ","⟩
  modifier := notBlank_ofList (by decide)
  inline := (notBlank_ofList (by decide)).before _
  link m _ := m.starts_code.elim (·.notBlank (by decide)) (·.notBlank (by decide))
  closing block := by cases block <;> exact notBlank_ofList (by decide)
  content text htext := by
    rcases Call.content_cases htext with ⟨p, -, rfl⟩ | ⟨comment, -, rfl⟩
    · exact ((notBlank_ofList (by decide)).before _).before _
    · exact (notBlank_ofList (by decide)).before _
  brace := notBlank_ofList (by decide)

theorem toList_render (base : Nat) (line : Line) :
    (render base line).toList =
      (indentation (base + line.level) ++ line.text).toList ++ ['\n'] := by
  simp [render]

theorem toList_render_add (base k : Nat) (line : Line) :
    (render (base + k) line).toList =
      List.replicate (4 * k) ' ' ++ (render base line).toList := by
  have hspaces : (indentation (base + k + line.level)).toList =
      List.replicate (4 * k) ' ' ++ (indentation (base + line.level)).toList := by
    rw [indentation, indentation, String.toList_ofList, String.toList_ofList,
      List.replicate_append_replicate]
    congr 1
    omega
  simp [toList_render, hspaces]

theorem toList_written (base : Nat) (lines : List Line) :
    (written base lines).toList = lines.flatMap fun line => (render base line).toList := by
  rw [written, String.toList_join, List.flatMap_map]

theorem lines_written {lines : List Line} (h : ∀ line ∈ lines, IsLine line.text) (base : Nat) :
    Text.lines (written base lines).toList = lines.map fun line => (render base line).toList := by
  induction lines with
  | nil => rfl
  | cons line lines ih =>
    obtain ⟨hline, hlines⟩ := List.forall_mem_cons.mp h
    rw [written_cons, String.toList_append, toList_render, List.append_assoc,
      List.singleton_append, Text.lines_append_feed (isLine_row _ hline), ih hlines,
      List.map_cons, toList_render]

/-- Spaces in front of every line of the text are levels of the lines. -/
theorem indented_written {lines : List Line} (h : ∀ line ∈ lines, IsLine line.text) (base k : Nat) :
    Text.indented (4 * k) (written base lines) = written (base + k) lines := by
  rw [← String.toList_inj, Text.indented, String.toList_ofList, lines_written h, toList_written,
    List.flatMap_map]
  simp only [toList_render_add]

end Line

/-- No line of the statements is blank. -/
theorem Stmt.passes_notBlank :
    Passes (fun e body => (∀ d, e.Contains d → d.OneLine) → Each NotBlank body)
      (fun _ children body =>
        (∀ c ∈ children, ∀ d, c.Contains d → d.OneLine) → Each NotBlank body) :=
  passes_each (fun _ _ => (notBlank_ofList (by decide)).before _) (notBlank_ofList (by decide))
    (notBlank_ofList (by decide)) fun e _ => Line.notBlank_callTexts e _

/-- The code of a layout without line feeds in its values that starts `k` levels deeper is its code
with `4 * k` spaces in front of every line, or the same error. Each line of the code ends in a line
feed and has something on it besides spaces. The same text comes from statements that stand `k`
levels deeper in other code. -/
theorem Element.code_indented {e : Element} (he : ∀ d, e.Contains d → d.OneLine)
    (maxDepth i k : Nat) :
    e.code maxDepth (i + k) = (e.code maxDepth i).map (Text.indented (4 * k)) ∧
    (∀ text, e.code maxDepth i = .ok text → ∀ line ∈ Text.lines text.toList,
      ∃ l, (∃ c ∈ l, c ≠ ' ') ∧ '\n' ∉ l ∧ line = l ++ ['\n']) ∧
    ∀ body, Stmt.ofElement maxDepth 1 e = .ok body →
      e.code maxDepth (i + k) = .ok (Line.written i (Line.ofBody k body)) := by
  cases hbody : Stmt.ofElement maxDepth 1 e with
  | error error => simp [Element.code, hbody, Except.map]
  | ok body =>
    have hcode : ∀ base, e.code maxDepth base = .ok (Line.written base (Line.ofBody 0 body)) := by
      intro base
      rw [Element.code, hbody]
      rfl
    have hlines := Stmt.passes_lined.ofElement e hbody he 0
    have hfilled := Stmt.passes_notBlank.ofElement e hbody he 0
    refine ⟨?_, ?_, ?_⟩
    · rw [hcode, hcode, ← Line.indented_written hlines]
      rfl
    · rintro text htext
      cases (hcode i).symm.trans htext
      rw [Line.lines_written hlines, List.forall_mem_map]
      intro line hline
      exact ⟨_, (hfilled line hline).after _, Line.isLine_row _ (hlines line hline),
        Line.toList_render i line⟩
    · rintro _ ⟨rfl⟩
      rw [hcode, ← Line.written_deeper, ← Line.ofBody_deeper, Nat.zero_add]

def labelledGrid : Element :=
  ⟨"GridLayout", [⟨"android:columnCount", "2"⟩], [
    ⟨"merge", [], [⟨"Button", [⟨"android:text", "Go"⟩], []⟩]⟩,
    ⟨"View", [⟨"android:layout_width", "8dp"⟩, ⟨"android:layout_height", "8dp"⟩,
      ⟨"android:padding", "2dp"⟩, ⟨"android:alpha", "0.5"⟩], []⟩]⟩

theorem Element.code_indented_grid :
    (∀ d, labelledGrid.Contains d → d.OneLine) ∧
      (∃ text, labelledGrid.code 3 1 = .ok text ∧
        labelledGrid.code 3 3 = .ok (Text.indented 8 text)) ∧
      ∃ error, labelledGrid.code 2 1 = .error error ∧ labelledGrid.code 2 3 = .error error := by
  have hcount : IsLine "2" := isLine_ofList (by decide)
  have htext : IsLine "Go" := isLine_ofList (by decide)
  have hsize : IsLine "8dp" := isLine_ofList (by decide)
  have hpadding : IsLine "2dp" := isLine_ofList (by decide)
  have halpha : IsLine "0.5" := isLine_ofList (by decide)
  have hgrid : ∀ d, labelledGrid.Contains d → d.OneLine := by
    simp only [labelledGrid, Element.forall_contains, List.forall_mem_cons, Element.OneLine]
    simp [hcount, htext, hsize, hpadding, halpha]
  obtain ⟨text, hcode⟩ : ∃ text, labelledGrid.code 3 1 = .ok text := ⟨_, rfl⟩
  obtain ⟨error, herror⟩ : ∃ error, labelledGrid.code 2 1 = .error error := ⟨_, rfl⟩
  refine ⟨hgrid, ⟨text, hcode, ?_⟩, error, herror, ?_⟩
  · have hdeeper := (Element.code_indented hgrid 3 1 2).1
    rwa [hcode] at hdeeper
  · have hdeeper := (Element.code_indented hgrid 2 1 2).1
    rwa [herror] at hdeeper

end LayoutCompose
