import LayoutCompose.Code.Comment
import LayoutCompose.Code.Literal

/-!
# Scanning generated code

A scan tells code from string literals and comments, character by character. What it sees
as code is the visible text: literals and comments leave nothing there but their first
marks.
-/

namespace LayoutCompose.Scan

/-- Goes through the list and not through all characters. -/
instance (priority := high) decidableForallMem (l : List Char) (p : Char → Prop) [DecidablePred p] :
    Decidable (∀ c ∈ l, p c) :=
  List.decidableBAll p l

inductive Mode where
  | code
  /-- In code, after a slash. -/
  | slash
  | literal
  /-- In a literal, after a backslash. -/
  | escape
  | line
  | block
  /-- In a block comment, after a star. -/
  | star
  deriving DecidableEq, Repr

namespace Mode

def nextInCode (c : Char) : Mode :=
  if c == '"' then literal else if c == '/' then slash else code

def next : Mode → Char → Mode
  | code, c => nextInCode c
  | slash, c => if c == '/' then line else if c == '*' then block else nextInCode c
  | literal, c => if c == '\\' then escape else if c == '"' then code else literal
  | escape, _ => literal
  | line, c => if c == '\n' then code else line
  | block, c => if c == '*' then star else block
  | star, c => if c == '/' then code else if c == '*' then star else block

def isCode : Mode → Bool
  | code | slash => true
  | _ => false

end Mode

def scan (m : Mode) (text : List Char) : Mode :=
  text.foldl Mode.next m

def visible : Mode → List Char → List Char
  | _, [] => []
  | m, c :: rest => if m.isCode then c :: visible (m.next c) rest else visible (m.next c) rest

theorem scan_cons (m : Mode) (c : Char) (rest : List Char) :
    scan m (c :: rest) = scan (m.next c) rest := rfl

theorem scan_append (m : Mode) (a b : List Char) : scan m (a ++ b) = scan (scan m a) b :=
  List.foldl_append

theorem visible_append (m : Mode) (a b : List Char) :
    visible m (a ++ b) = visible m a ++ visible (scan m a) b := by
  induction a generalizing m with
  | nil => rfl
  | cons c a ih => cases h : m.isCode <;> simp [visible, scan_cons, h, ih]

/-- Modes in which a line break is a character like others. -/
def Mode.holdsBreaks : Mode → Bool
  | literal | block | star => true
  | _ => false

def hidesBreaks : Mode → List Char → Bool
  | _, [] => true
  | m, c :: rest =>
    ((c != '\n' && c != '\r') || m.holdsBreaks) && hidesBreaks (m.next c) rest

theorem hidesBreaks_append (m : Mode) (a b : List Char) :
    hidesBreaks m (a ++ b) = (hidesBreaks m a && hidesBreaks (scan m a) b) := by
  induction a generalizing m with
  | nil => simp [hidesBreaks, scan]
  | cons c a ih => simp [hidesBreaks, scan_cons, ih, Bool.and_assoc]

structure Inside (m : Mode) (text : List Char) (m' : Mode) : Prop where
  scan : scan m text = m'
  visible : visible m text = []
  hidesBreaks : hidesBreaks m text = true

theorem Inside.append (ha : Inside m a m') (hb : Inside m' b m'') : Inside m (a ++ b) m'' where
  scan := by rw [scan_append, ha.scan, hb.scan]
  visible := by rw [visible_append, ha.scan, ha.visible, hb.visible]; rfl
  hidesBreaks := by rw [hidesBreaks_append, ha.scan, ha.hidesBreaks, hb.hidesBreaks]; rfl

instance (m : Mode) (text : List Char) (m' : Mode) : Decidable (Inside m text m') :=
  decidable_of_iff (Scan.scan m text = m' ∧ Scan.visible m text = [] ∧
      Scan.hidesBreaks m text = true)
    ⟨fun h => ⟨h.1, h.2.1, h.2.2⟩, fun h => ⟨h.scan, h.visible, h.hidesBreaks⟩⟩

-- ---------------------------------------------------------------------------
-- Literals
-- ---------------------------------------------------------------------------

theorem inside_single {m : Mode} (h : m.holdsBreaks = true) (c : Char) :
    Inside m [c] (m.next c) where
  scan := rfl
  visible := by
    have hcode : m.isCode = false := by cases m <;> simp_all [Mode.holdsBreaks, Mode.isCode]
    simp [visible, hcode]
  hidesBreaks := by simp [hidesBreaks, h]

theorem inside_literal (hquote : c ≠ '"') (hslash : c ≠ '\\') : Inside .literal [c] .literal := by
  have hnext : Mode.next .literal c = .literal := by simp [Mode.next, hquote, hslash]
  simpa [hnext] using inside_single (m := .literal) rfl c

theorem inside_plain (h : c ≠ '\\') : Inside .literal (Literal.plain c) .literal := by
  unfold Literal.plain
  split
  case h_5 hquote _ _ _ => exact inside_literal hquote h
  all_goals decide

theorem inside_escaped (c : Char) : Inside .literal (Literal.escaped c) .literal := by
  unfold Literal.escaped
  split
  case h_6 hslash hquote _ => exact inside_literal hquote hslash
  all_goals decide

theorem inside_body (l : List Char) : Inside .literal (Literal.body l) .literal := by
  fun_induction Literal.body l with
  | case1 | case2 => decide
  | case3 c rest ih => exact (inside_escaped c).append ih
  | case4 c rest hlast hslash ih =>
    refine (inside_plain ?_).append ih
    rintro rfl
    cases rest with
    | nil => exact hlast rfl rfl
    | cons d rest => exact hslash d rest rfl rfl

-- ---------------------------------------------------------------------------
-- Comments
-- ---------------------------------------------------------------------------

theorem inside_breakEnds (l : List Char) (hm : m = .block ∨ m = .star ∧ l.head? ≠ some '/') :
    ∃ m', (m' = .block ∨ m' = .star) ∧ Inside m (Comment.breakEnds l) m' := by
  fun_induction Comment.breakEnds l generalizing m with
  | case1 =>
    rcases hm with rfl | ⟨rfl, -⟩
    · exact ⟨.block, .inl rfl, by decide⟩
    · exact ⟨.star, .inr rfl, by decide⟩
  | case2 rest ih =>
    obtain ⟨m', hm', hrest⟩ := ih (m := .block) (.inl rfl)
    have hstart : Inside m ['*', ' ', '/'] .block := by
      rcases hm with rfl | ⟨rfl, -⟩ <;> decide
    exact ⟨m', hm', hstart.append hrest⟩
  | case3 c rest hend ih =>
    have hsingle : Inside m [c] (m.next c) := by
      rcases hm with rfl | ⟨rfl, -⟩ <;> exact inside_single rfl c
    have hnext : m.next c = .block ∨ m.next c = .star ∧ rest.head? ≠ some '/' := by
      by_cases hstar : c = '*'
      · refine .inr ⟨?_, ?_⟩
        · rcases hm with rfl | ⟨rfl, -⟩ <;> simp [Mode.next, hstar]
        · intro hhead
          obtain ⟨rest', rfl⟩ := List.head?_eq_some_iff.mp hhead
          exact hend rest' hstar rfl
      · rcases hm with rfl | ⟨rfl, hhead⟩
        · exact .inl (by simp [Mode.next, hstar])
        · have hslash : c ≠ '/' := by simpa using hhead
          exact .inl (by simp [Mode.next, hstar, hslash])
    obtain ⟨m', hm', hrest⟩ := ih hnext
    exact ⟨m', hm', hsingle.append hrest⟩

-- ---------------------------------------------------------------------------
-- Texts from code to code
-- ---------------------------------------------------------------------------

/-- A text that starts and ends in code, and what is visible of it. -/
structure Shows (text : String) (shown : List Char) : Prop where
  scan : scan .code text.toList = .code
  visible : visible .code text.toList = shown
  hidesBreaks : hidesBreaks .code text.toList = true

theorem Shows.append (ha : Shows a x) (hb : Shows b y) : Shows (a ++ b) (x ++ y) where
  scan := by rw [String.toList_append, scan_append, ha.scan, hb.scan]
  visible := by rw [String.toList_append, visible_append, ha.scan, ha.visible, hb.visible]
  hidesBreaks := by
    rw [String.toList_append, hidesBreaks_append, ha.scan, ha.hidesBreaks, hb.hidesBreaks]
    rfl

instance (text : String) (shown : List Char) : Decidable (Shows text shown) :=
  decidable_of_iff (Scan.scan .code text.toList = .code ∧ Scan.visible .code text.toList = shown ∧
      Scan.hidesBreaks .code text.toList = true)
    ⟨fun h => ⟨h.1, h.2.1, h.2.2⟩, fun h => ⟨h.scan, h.visible, h.hidesBreaks⟩⟩

/-- Characters that neither start a literal or a comment nor break a line. -/
def isPlain (c : Char) : Bool :=
  c != '"' && c != '/' && c != '\n' && c != '\r'

def Plain (text : String) : Prop := ∀ c ∈ text.toList, isPlain c = true

instance (text : String) : Decidable (Plain text) :=
  List.decidableBAll _ text.toList

theorem Plain.append (ha : Plain a) (hb : Plain b) : Plain (a ++ b) := by
  intro c hc
  rw [String.toList_append, List.mem_append] at hc
  exact hc.elim (ha c) (hb c)

theorem Plain.shows (h : Plain text) : Shows text text.toList := by
  suffices hl : ∀ l : List Char, (∀ c ∈ l, isPlain c = true) →
      Scan.scan .code l = .code ∧ Scan.visible .code l = l ∧ Scan.hidesBreaks .code l = true by
    obtain ⟨hscan, hvisible, hbreaks⟩ := hl text.toList h
    exact ⟨hscan, hvisible, hbreaks⟩
  intro l h
  induction l with
  | nil => decide
  | cons c l ih =>
    obtain ⟨hc, hl⟩ := List.forall_mem_cons.mp h
    simp only [isPlain, Bool.and_eq_true, bne_iff_ne] at hc
    obtain ⟨⟨⟨hquote, hslash⟩, hfeed⟩, hreturn⟩ := hc
    have hnext : Mode.next .code c = .code := by simp [Mode.next, Mode.nextInCode, hquote, hslash]
    simp [scan_cons, Scan.visible, Scan.hidesBreaks, hnext, ih hl, Mode.isCode, hfeed, hreturn]

theorem shows_of_inside {text : String} {start : List Char} (htext : text.toList = start ++ l)
    (hstart : scan .code start = m ∧ visible .code start = start ∧ hidesBreaks .code start = true)
    (hinside : Inside m l .code) : Shows text start := by
  obtain ⟨hscan, hvisible, hbreaks⟩ := hstart
  constructor
  · rw [htext, scan_append, hscan, hinside.scan]
  · rw [htext, visible_append, hscan, hvisible, hinside.visible, List.append_nil]
  · rw [htext, hidesBreaks_append, hscan, hbreaks, hinside.hidesBreaks, Bool.and_self]

theorem shows_quote (raw : String) : Shows (Literal.quote raw) ['"'] := by
  have htext : (Literal.quote raw).toList = ['"'] ++ (Literal.body raw.toList ++ ['"']) := by
    simp [Literal.quote]
  have hend : Inside .literal ['"'] .code := by decide
  exact shows_of_inside htext (by decide) ((inside_body raw.toList).append hend)

theorem shows_todo (text : String) : Shows (Comment.todo text) ['/', '*'] := by
  obtain ⟨m, hm, hbody⟩ := inside_breakEnds (m := .block) text.toList (.inl rfl)
  have htext : (Comment.todo text).toList =
      ['/', '*'] ++ (" TODO: ".toList ++ Comment.breakEnds text.toList ++ " */".toList) := by
    simp [Comment.todo, Comment.guarded]
  have hstart : Inside .block " TODO: ".toList .block := by decide
  have hend : Inside m " */".toList .code := by
    rcases hm with rfl | rfl <;> decide
  exact shows_of_inside htext (by decide) ((hstart.append hbody).append hend)

-- ---------------------------------------------------------------------------
-- Words
-- ---------------------------------------------------------------------------

theorem Mode.isCode_next {m : Mode} (hm : m.isCode = true) (hc : Char.isAlpha c = true) :
    (m.next c).isCode = true := by
  have hquote : c ≠ '"' := by rintro rfl; simp at hc
  have hslash : c ≠ '/' := by rintro rfl; simp at hc
  have hstar : c ≠ '*' := by rintro rfl; simp at hc
  cases m <;> simp_all [next, nextInCode, isCode]

theorem visible_of_isAlpha (hm : m.isCode = true) (hw : ∀ c ∈ w, c.isAlpha = true) :
    visible m w = w := by
  induction w generalizing m with
  | nil => rfl
  | cons c w ih =>
    obtain ⟨hc, hw⟩ := List.forall_mem_cons.mp hw
    rw [visible, if_pos hm, ih (Mode.isCode_next hm hc) hw]

/-- A word that begins in code is part of the visible text. -/
theorem infix_visible (hw : ∀ c ∈ w, c.isAlpha = true) (hcode : (scan m before).isCode = true) :
    w <:+: visible m (before ++ w ++ after) := by
  rw [visible_append, visible_append, visible_of_isAlpha hcode hw]
  exact ⟨_, _, rfl⟩

theorem prefix_of_visible (hw : ∀ c ∈ w, c.isAlpha = true) (hm : m.isCode = true)
    (h : w <+: visible m l) : w <+: l := by
  induction l generalizing m w with
  | nil => exact h
  | cons c l ih =>
    rw [visible, if_pos hm] at h
    cases w with
    | nil => exact List.nil_prefix
    | cons a w =>
      obtain ⟨rfl, h⟩ := List.cons_prefix_cons.mp h
      obtain ⟨ha, hw⟩ := List.forall_mem_cons.mp hw
      exact List.cons_prefix_cons.mpr ⟨rfl, ih hw (Mode.isCode_next hm ha) h⟩

/-- A word of the visible text begins in code, because what is hidden follows a mark. -/
theorem exists_of_infix_visible (hne : w ≠ []) (hw : ∀ c ∈ w, c.isAlpha = true)
    (h : w <:+: visible m l) :
    ∃ before after, l = before ++ w ++ after ∧ (scan m before).isCode = true := by
  induction l generalizing m with
  | nil => exact absurd (List.infix_nil.mp h) hne
  | cons c l ih =>
    have hlater : w <:+: visible (m.next c) l → ∃ before after,
        c :: l = before ++ w ++ after ∧ (scan m before).isCode = true := by
      intro hrest
      obtain ⟨before, after, rfl, hcode⟩ := ih hrest
      exact ⟨c :: before, after, rfl, hcode⟩
    by_cases hm : m.isCode = true
    case pos =>
      have hvisible : visible m (c :: l) = c :: visible (m.next c) l := by rw [visible, if_pos hm]
      rw [hvisible] at h
      rcases List.infix_cons_iff.mp h with hlead | hrest
      · obtain ⟨after, hafter⟩ := prefix_of_visible hw hm (hvisible ▸ hlead)
        exact ⟨[], after, hafter.symm, hm⟩
      · exact hlater hrest
    case neg =>
      rw [visible, if_neg hm] at h
      exact hlater h

/-- A word stands on one side of every character that it does not have. -/
theorem append_cons_eq_append {a b w : List Char} (hc : c ∉ w)
    (h : a ++ c :: b = before ++ w ++ after) :
    (∃ rest, a = before ++ w ++ rest ∧ after = rest ++ c :: b) ∨
      ∃ start, before = a ++ c :: start ∧ b = start ++ w ++ after := by
  rcases List.append_eq_append_iff.mp h with ⟨x, hx, hrest⟩ | ⟨x, rfl, hrest⟩
  case inr => exact .inl ⟨x, rfl, hrest⟩
  cases x with
  | nil => exact .inl ⟨[], by simpa using hx.symm, by simpa using hrest.symm⟩
  | cons d x =>
    obtain ⟨rfl, rfl⟩ := List.cons_eq_cons.mp hrest
    rcases List.append_eq_append_iff.mp hx with ⟨y, -, rfl⟩ | ⟨y, rfl, hy⟩
    · exact (hc (by simp)).elim
    cases y with
    | nil =>
      have hw : w = c :: x := by simpa using hy.symm
      exact (hc (by simp [hw])).elim
    | cons e y =>
      obtain ⟨rfl, rfl⟩ := List.cons_eq_cons.mp hy
      exact .inr ⟨y, rfl, rfl⟩

theorem infix_of_infix_append_cons {a b w : List Char} (hc : c ∉ w) (h : w <:+: a ++ c :: b) :
    w <:+: a ∨ w <:+: b := by
  obtain ⟨before, after, heq⟩ := h
  rcases append_cons_eq_append hc heq.symm with ⟨rest, rfl, -⟩ | ⟨start, -, rfl⟩
  · exact .inl ⟨before, rest, rfl⟩
  · exact .inr ⟨start, after, rfl⟩

end LayoutCompose.Scan
