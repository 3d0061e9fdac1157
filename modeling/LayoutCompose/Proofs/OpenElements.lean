import LayoutCompose.Proofs.RejectionComment

/-!
# The open elements of a reader and of a tree

The reader keeps the names of the open elements to check closing tags, and the
assembly keeps the open elements themselves to build the tree. An event changes both
in the same way, so the names are the tags at every moment of a reading. A closing
tag that passes the reader finds its element innermost in the tree, and the two
faults for a closing tag that reached the tree wrongly never come up.
-/

namespace LayoutCompose

open Markup

-- ---------------------------------------------------------------------------
-- Where a fault comes from
-- ---------------------------------------------------------------------------

namespace Markup

/-- The part of a reading that reports a fault. -/
inductive Fault.Origin where
  /-- The reader, between one event and the next. -/
  | reader
  /-- The attributes of a start tag. -/
  | tag
  /-- The tree that is assembled. -/
  | tree
  deriving DecidableEq

def Fault.origin : Fault → Origin
  | .unknownDeclaration | .unclosedInstruction | .unclosedComment | .unclosedDoctype
  | .unclosedCharacterData | .unclosedTag | .doctypeWithoutName | .mismatchedClose _ _
  | .unmatchedClose _ => .reader
  | .keyWithoutEquals _ | .valueMissing _ | .valueUnquoted _ | .quoteMissing _ _
  | .entityUnterminated _ _ | .entityUnknown _ _ _ | .reference _ => .tag
  | .secondRoot | .neverClosed _ | .strayClose _ | .crossedClose _ _ => .tree

theorem origin_of_entity (h : entity position name = .error fault) : fault.origin = .tag := by
  unfold entity at h
  split at h
  · cases hcharacter : characterOf _ with
    | error fault => rw [hcharacter] at h; cases h; rfl
    | ok c => rw [hcharacter] at h; cases h
  · split at h <;> cases h
    rfl

theorem origin_of_expandFrom (h : expandFrom length position cs = .error fault) :
    fault.origin = .tag := by
  fun_induction expandFrom length position cs with
  | case1 | case4 => cases h
  | case2 =>
    rename_i hentity
    cases h
    exact origin_of_entity hentity
  | case3 =>
    rename_i hrest ih
    cases h
    exact ih hrest
  | case5 =>
    cases h
    rfl

theorem origin_of_readAttribute (h : readAttribute position first cs = .error fault) :
    fault.origin = .tag := by
  simp only [readAttribute, readValue] at h
  repeat' split at h
  all_goals cases h
  all_goals rfl

theorem origin_of_readAttributes (h : readAttributes position cs = .error fault) :
    fault.origin = .tag := by
  fun_induction readAttributes position cs with
  | case1 | case5 => cases h
  | case2 =>
    rename_i hattribute
    cases h
    exact origin_of_readAttribute hattribute
  | case3 =>
    rename_i hvalue
    cases h
    exact origin_of_expandFrom hvalue
  | case4 =>
    rename_i hrest ih
    cases h
    exact ih hrest

theorem origin_of_elementOf (h : elementOf content = .error fault) : fault.origin = .tag := by
  simp only [elementOf] at h
  split at h <;> cases h
  exact origin_of_readAttributes ‹_›

theorem Reader.origin_of_readMarkup (h : readMarkup start names cs = .error (fault, place)) :
    fault.origin = .reader := by
  simp only [readMarkup, readDeclaration, readInstruction, readClosing, readOpening] at h
  repeat' split at h
  all_goals cases h
  all_goals rfl

theorem Reader.origin_of_next {r : Reader} (h : r.next = .error (fault, place)) :
    fault.origin = .reader := by
  obtain ⟨start, cs, hread⟩ := next_eq_error h
  exact origin_of_readMarkup hread

-- ---------------------------------------------------------------------------
-- What an event does to the open elements
-- ---------------------------------------------------------------------------

/-- The names of the open elements, innermost first, before and after an event. -/
def Event.Moves : Event → List String → List String → Prop
  | .ignored, before, after | .childless _, before, after => after = before
  | .opening content, before, after => after = String.ofList (nameOf content) :: before
  | .closing name, before, after => before = name :: after

theorem Event.Moves.functional {event : Event} (h : event.Moves before after)
    (h' : event.Moves before after') : after = after' := by
  cases event with
  | ignored | childless content | opening content => exact h.trans h'.symm
  | closing name => exact List.tail_eq_of_cons_eq (h.symm.trans h')

namespace Reader

theorem moves_of_readMarkup (h : readMarkup start names cs = .ok (event, r)) :
    event.Moves names r.unclosed := by
  unfold readMarkup at h
  split at h
  · cases h
  · unfold readDeclaration at h
    repeat' split at h
    all_goals cases h
    all_goals rfl
  · unfold readInstruction at h
    repeat' split at h
    all_goals cases h
    all_goals rfl
  · simp only [readClosing] at h
    repeat' split at h
    all_goals cases h
    -- only a closing tag that names the innermost open element is let through
    rename_i hname
    exact hname ▸ rfl
  · simp only [readOpening] at h
    repeat' split at h
    all_goals cases h
    all_goals rfl

theorem moves_of_next {r r' : Reader} (h : r.next = .ok (some (event, r'))) :
    event.Moves r.unclosed r'.unclosed := by
  obtain ⟨start, cs, hread⟩ | ⟨rfl, hunclosed⟩ := next_eq_some h
  · exact moves_of_readMarkup hread
  · exact hunclosed

end Reader

theorem tag_of_elementOf (h : elementOf content = .ok e) :
    e.tag = String.ofList (nameOf content) := by
  simp only [elementOf] at h
  split at h <;> cases h
  rfl

end Markup

namespace Assembly

def tags (a : Assembly) : List String := a.stack.map (·.tag)

@[simp] theorem tags_attach (a : Assembly) (e : Element) : (a.attach e).tags = a.tags := by
  unfold attach
  split
  · rfl
  · rename_i hstack
    simp [tags, hstack]

theorem moves_of_add {a a' : Assembly} (h : a.add limits source offset event = .ok a') :
    event.Moves a.tags a'.tags := by
  cases event with
  | ignored =>
    cases h
    rfl
  | opening content =>
    rw [add_opening] at h
    obtain ⟨e, he, -, rfl⟩ := enter_map_eq_ok h
    exact congrArg (· :: a.tags) (tag_of_elementOf he)
  | childless content =>
    rw [add_childless] at h
    obtain ⟨e, -, -, rfl⟩ := enter_map_eq_ok h
    exact tags_attach a.counted e
  | closing name =>
    simp only [add] at h
    split at h
    · cases h
    · rename_i top outer hstack
      split at h <;> cases h
      rename_i hname
      rw [tags_attach]
      simp [Event.Moves, tags, hstack, hname]

end Assembly

-- ---------------------------------------------------------------------------
-- Closing tags that the tree cannot place
-- ---------------------------------------------------------------------------

/-- Whether the fault is that of a closing tag which reached the tree wrongly. -/
def Markup.Fault.isMisplacedClose : Fault → Bool
  | .strayClose _ | .crossedClose _ _ => true
  | _ => false

theorem Markup.Fault.isMisplacedClose_of_origin {fault : Fault} (h : fault.origin ≠ .tree) :
    fault.isMisplacedClose = false := by
  cases fault with
  | strayClose name | crossedClose top name => exact absurd rfl h
  | _ => rfl

theorem Text.prefix_append {a : String} (h : l <+: a.toList) (b : String) :
    l <+: (a ++ b).toList := by
  rw [String.toList_append]
  exact h.trans (List.prefix_append _ _)

theorem Text.prefix_ofList (c d : Char) (l : List Char) :
    [c, d] <+: (String.ofList (c :: d :: l)).toList := by
  rw [String.toList_ofList]
  exact ⟨l, rfl⟩

namespace Markup.Fault

def opening : Fault → List Char
  | .unknownDeclaration | .unclosedInstruction | .unclosedComment | .unclosedDoctype
  | .unclosedCharacterData | .unclosedTag => ['s', 'y']
  | .doctypeWithoutName | .mismatchedClose _ _ | .unmatchedClose _ => ['i', 'l']
  | .keyWithoutEquals _ | .valueMissing _ | .valueUnquoted _ | .quoteMissing _ _ => ['p', 'o']
  | .entityUnterminated _ _ => ['E', 'r']
  | .entityUnknown _ _ _ => ['a', 't']
  | .reference _ => ['i', 'n']
  | .secondRoot => ['d', 'o']
  | .neverClosed _ => ['e', 'l']
  | .strayClose _ => ['u', 'n']
  | .crossedClose _ _ => ['e', 'x']

theorem opening_notFound (what closing : String) :
    ['s', 'y'] <+: (notFound what closing).toList := by
  unfold notFound
  repeat with_reducible apply Text.prefix_append
  exact Text.prefix_ofList _ _ _

theorem opening_prefix (fault : Fault) : fault.opening <+: fault.message.toList := by
  cases fault with
  | unclosedInstruction | unclosedComment | unclosedDoctype | unclosedCharacterData | unclosedTag =>
    exact opening_notFound _ _
  | _ =>
    unfold message
    repeat with_reducible apply Text.prefix_append
    exact Text.prefix_ofList _ _ _

theorem opening_of_startsWith {fault : Fault} (hlead : 2 ≤ lead.toList.length)
    (h : Text.startsWith lead fault.message = true) : fault.opening = lead.toList.take 2 := by
  have hlength : fault.opening.length = (lead.toList.take 2).length := by
    rw [List.length_take, Nat.min_eq_left hlead]
    cases fault <;> rfl
  have hprefix : lead.toList.take 2 <+: fault.message.toList :=
    (List.take_prefix 2 _).trans (List.isPrefixOf_iff_prefix.mp h)
  have hopening := List.prefix_of_prefix_length_le fault.opening_prefix hprefix hlength.le
  exact hopening.eq_of_length hlength

theorem isMisplacedClose_of_opening {fault : Fault}
    (h : fault.opening = ['u', 'n'] ∨ fault.opening = ['e', 'x']) :
    fault.isMisplacedClose = true := by
  cases fault <;> simp_all [opening, isMisplacedClose]

theorem startsWith_message {fault : Fault} (h : fault.isMisplacedClose = false) :
    Text.startsWith "unexpected closing tag" fault.message = false ∧
      Text.startsWith "expected </" fault.message = false := by
  have hopening : ¬ (fault.opening = ['u', 'n'] ∨ fault.opening = ['e', 'x']) := fun hopening =>
    Bool.false_ne_true (h.symm.trans (isMisplacedClose_of_opening hopening))
  constructor <;> refine Bool.eq_false_iff.mpr fun hlead => hopening ?_
  · exact .inl (opening_of_startsWith (by decide) hlead)
  · exact .inr (opening_of_startsWith (by decide) hlead)

end Markup.Fault

namespace Assembly

/-- The reader and the tree have the same elements open. -/
def InStep (r : Reader) (a : Assembly) : Prop := a.tags = r.unclosed

theorem InStep.add (h : InStep r a) (hnext : r.next = .ok (some (event, r')))
    (hadd : a.add limits source offset event = .ok a') : InStep r' a' := by
  have hmoves : event.Moves a.tags r'.unclosed := h ▸ Reader.moves_of_next hnext
  exact (moves_of_add hadd).functional hmoves

theorem InStep.stack_of_closing (h : InStep r a)
    (hnext : r.next = .ok (some (.closing name, r'))) :
    ∃ top outer, a.stack = top :: outer ∧ top.tag = name := by
  have hunclosed : a.tags = name :: r'.unclosed := h.trans (Reader.moves_of_next hnext)
  obtain ⟨top, outer, hstack, htag, -⟩ := List.map_eq_cons_iff.mp hunclosed
  exact ⟨top, outer, hstack, htag⟩

theorem isMisplacedClose_of_enter {a : Assembly}
    (h : a.enter limits source offset content = .error (.malformed fault here)) :
    fault.isMisplacedClose = false := by
  unfold enter at h
  split at h
  · rename_i helement
    cases h
    exact Fault.isMisplacedClose_of_origin (by rw [origin_of_elementOf helement]; decide)
  split at h
  · rename_i hroom
    cases h
    simp only [makeRoom] at hroom
    repeat' split at hroom
    all_goals cases hroom
    rfl
  · cases h

theorem InStep.isMisplacedClose_of_add (h : InStep r a)
    (hnext : r.next = .ok (some (event, r')))
    (hadd : a.add limits source offset event = .error (.malformed fault here)) :
    fault.isMisplacedClose = false := by
  cases event with
  | ignored => cases hadd
  | opening content =>
    simp only [Assembly.add] at hadd
    split at hadd <;> cases hadd
    exact isMisplacedClose_of_enter ‹_›
  | childless content =>
    simp only [Assembly.add] at hadd
    split at hadd <;> cases hadd
    exact isMisplacedClose_of_enter ‹_›
  | closing name =>
    obtain ⟨top, outer, hstack, htag⟩ := h.stack_of_closing hnext
    simp only [Assembly.add, hstack, if_pos htag] at hadd
    cases hadd

end Assembly

-- ---------------------------------------------------------------------------
-- A whole reading
-- ---------------------------------------------------------------------------

namespace Document

open Assembly (InStep)

theorem isMisplacedClose_of_readFrom (h : InStep r a)
    (hread : readFrom limits source r a = .error (.malformed fault here)) :
    fault.isMisplacedClose = false := by
  fun_induction readFrom limits source r a with
  | case1 r a fault offset hnext =>
    cases hread
    exact Fault.isMisplacedClose_of_origin (by rw [Reader.origin_of_next hnext]; decide)
  | case2 r a hnext =>
    unfold Assembly.finish at hread
    repeat' split at hread
    all_goals cases hread
    rfl
  | case3 r a event r' hnext hlt error hadd =>
    cases hread
    exact h.isMisplacedClose_of_add hnext hadd
  | case4 r a event r' hnext hlt a' hadd ih => exact ih (h.add hnext hadd) hread

inductive Reaches (limits : Limits) (source : String) : Reader → Assembly → Prop
  | start : Reaches limits source (.ofSource source) {}
  | step (h : Reaches limits source r a) (hnext : r.next = .ok (some (event, r')))
      (hadd : a.add limits source r.offset event = .ok a') : Reaches limits source r' a'

theorem inStep_start (source : String) : InStep (.ofSource source) {} :=
  (Reader.unclosed_ofSource source).symm

theorem Reaches.inStep (h : Reaches limits source r a) : InStep r a := by
  induction h with
  | start => exact inStep_start source
  | step _ hnext hadd ih => exact ih.add hnext hadd

theorem Reaches.read_eq (h : Reaches limits source r a) :
    read limits source = readFrom limits source r a := by
  induction h with
  | start => rfl
  | step _ hnext hadd ih =>
    rw [ih, readFrom_of_some hnext, hadd]
    rfl

/-- At every moment of a reading the names that the reader checks are the tags of the open
elements, so a closing tag closes the innermost of them, and no reading ends in the fault of a
closing tag that the tree cannot place. -/
theorem closing_innermost (limits : Limits) (source : String) :
    (∀ r a, Reaches limits source r a →
      read limits source = readFrom limits source r a ∧
      a.stack.map (·.tag) = r.unclosed ∧
      ∀ name r', r.next = .ok (some (.closing name, r')) →
        ∃ top outer, a.stack = top :: outer ∧ top.tag = name) ∧
    ∀ fault here, read limits source = .error (.malformed fault here) →
      Text.startsWith "unexpected closing tag" fault.message = false ∧
      Text.startsWith "expected </" fault.message = false := by
  refine ⟨fun r a h => ⟨h.read_eq, h.inStep, fun name r' => h.inStep.stack_of_closing⟩, ?_⟩
  intro fault here h
  exact Fault.startsWith_message (isMisplacedClose_of_readFrom (inStep_start source) h)

/-- The closing tag has a space after its name, and the one of another element is stopped by the
reader. -/
theorem closing_innermost_spaced :
    (∃ r a r', Reaches {} "<a></a >" r a ∧ r.next = .ok (some (.closing "a", r')) ∧
      ∃ top outer, a.stack = top :: outer ∧ top.tag = "a") ∧
    read {} "<a></b>" = .error (.malformed (.mismatchedClose "a" "b") ⟨1, 4⟩) ∧
      Text.startsWith "expected </" (Fault.mismatchedClose "a" "b").message = false := by
  have hopening : (Reader.ofSource "<a></a >").next =
      .ok (some (.opening ['a'], ⟨3, ['<', '/', 'a', ' ', '>'], ["a"]⟩)) := by
    with_unfolding_all rfl
  have hopened : Reaches {} "<a></a >" ⟨3, ['<', '/', 'a', ' ', '>'], ["a"]⟩
      { stack := [⟨"a", [], []⟩], depth := 1, count := 1 } :=
    .step .start hopening (by with_unfolding_all rfl)
  have hclosing : Reader.next ⟨3, ['<', '/', 'a', ' ', '>'], ["a"]⟩ =
      .ok (some (.closing "a", ⟨8, [], []⟩)) := by with_unfolding_all rfl
  have hread : read {} "<a></b>" = .error (.malformed (.mismatchedClose "a" "b") ⟨1, 4⟩) := by
    with_unfolding_all rfl
  obtain ⟨-, -, hinnermost⟩ := (closing_innermost {} "<a></a >").1 _ _ hopened
  exact ⟨⟨_, _, _, hopened, hclosing, hinnermost "a" _ hclosing⟩, hread,
    ((closing_innermost {} "<a></b>").2 _ _ hread).2⟩

end Document

end LayoutCompose
