import LayoutCompose.Proofs.Locations
import LayoutCompose.Proofs.OpenElements

/-!
# A byte order mark before a document

The reader drops a leading byte order mark and does not count it, but a fault is
placed by walking the source from its start, where the mark still stands. So a
mark changes nothing but the place of a fault: the place is read off three bytes
too early, and the line is another one exactly if a line feed lies among those
three. Only the fault of an element that is never closed is placed at the end of
the source itself, which is the same line with and without the mark.
-/

namespace LayoutCompose

open Markup

-- ---------------------------------------------------------------------------
-- Characters that start between two offsets
-- ---------------------------------------------------------------------------

namespace Location

def StartsIn (x : Char) (cs : List Char) (first last : Nat) : Prop :=
  ∃ before after, cs = before ++ x :: after ∧
    first ≤ Text.byteLength before ∧ Text.byteLength before < last

theorem startsIn_cons (x c : Char) (cs : List Char) (first last : Nat) :
    StartsIn x (c :: cs) first last ↔
      (c = x ∧ first = 0 ∧ 0 < last) ∨
        StartsIn x cs (first - c.utf8Size) (last - c.utf8Size) := by
  constructor
  · rintro ⟨before, after, hcs, hfirst, hlast⟩
    cases before with
    | nil =>
      obtain ⟨rfl, rfl⟩ := List.cons.inj hcs
      exact .inl ⟨rfl, Nat.le_zero.mp hfirst, hlast⟩
    | cons b before =>
      obtain ⟨rfl, rfl⟩ := List.cons.inj hcs
      rw [Text.byteLength_cons] at hfirst hlast
      exact .inr ⟨before, after, rfl, by omega, by omega⟩
  · rintro (⟨rfl, rfl, hlast⟩ | ⟨before, after, rfl, hfirst, hlast⟩)
    · exact ⟨[], cs, rfl, Nat.zero_le _, hlast⟩
    · refine ⟨c :: before, after, rfl, ?_, ?_⟩ <;> rw [Text.byteLength_cons] <;> omega

theorem not_startsIn_zero (x : Char) (cs : List Char) (first : Nat) :
    ¬ StartsIn x cs first 0 :=
  fun ⟨_, _, _, _, hlast⟩ => Nat.not_lt_zero _ hlast

/-- Two offsets have equally many of a character before them unless one starts in between. -/
theorem count_charsBefore_eq_iff (x : Char) (cs : List Char) (h : first ≤ last) :
    (charsBefore cs first).count x = (charsBefore cs last).count x ↔
      ¬ StartsIn x cs first last := by
  induction cs generalizing first last with
  | nil => simp [charsBefore, StartsIn]
  | cons c cs ih =>
    obtain rfl | hlast := Nat.eq_zero_or_pos last
    · obtain rfl := Nat.le_zero.mp h
      simp [not_startsIn_zero]
    have hrest := ih (Nat.sub_le_sub_right h c.utf8Size)
    rw [charsBefore_cons c cs hlast, startsIn_cons, not_or, ← hrest]
    obtain rfl | hfirst := Nat.eq_zero_or_pos first
    · -- Nothing stands before the first offset, so `c` itself decides if it is the character.
      by_cases hc : c = x
      · simp [hc, hlast]
      · simp [hc]
    · have hne : first ≠ 0 := Nat.pos_iff_ne_zero.mp hfirst
      simp [charsBefore_cons c cs hfirst, List.count_cons, hne]

end Location

-- ---------------------------------------------------------------------------
-- Places in a marked source
-- ---------------------------------------------------------------------------

def marked (source : String) : String :=
  String.ofList (Reader.byteOrderMark :: source.toList)

theorem toList_marked (source : String) :
    (marked source).toList = Reader.byteOrderMark :: source.toList :=
  String.toList_ofList

theorem ofSource_marked (h : source.toList.head? ≠ some Reader.byteOrderMark) :
    Reader.ofSource (marked source) = Reader.ofSource source := by
  rw [Reader.ofSource, Reader.ofSource, toList_marked]
  cases hs : source.toList with
  | nil => rfl
  | cons c cs =>
    have hc : ¬ (c == Reader.byteOrderMark) = true := by
      intro hc
      exact h (by rw [hs, eq_of_beq hc]; rfl)
    simp only [beq_self_eq_true, if_true, if_neg hc]

/-- The mark takes up the first of the bytes that an offset counts. -/
theorem line_ofOffset_marked (source : String) (offset : Nat) :
    (Location.ofOffset (marked source) offset).line =
      (Location.ofOffset source (offset - Reader.byteOrderMark.utf8Size)).line := by
  rw [Location.line_ofOffset, Location.line_ofOffset, toList_marked]
  obtain rfl | hoffset := Nat.eq_zero_or_pos offset
  · simp
  · rw [Location.charsBefore_cons _ _ hoffset, List.count_cons_of_ne (by decide)]

/-- A line feed starts among as many bytes before the offset as the mark has. -/
def FeedJustBefore (source : String) (offset : Nat) : Prop :=
  Location.StartsIn '\n' source.toList (offset - Reader.byteOrderMark.utf8Size) offset

theorem line_marked_eq_iff (source : String) (offset : Nat) :
    (Location.ofOffset (marked source) offset).line = (Location.ofOffset source offset).line ↔
      ¬ FeedJustBefore source offset := by
  rw [line_ofOffset_marked, Location.line_ofOffset, Location.line_ofOffset, Nat.add_left_cancel_iff]
  exact Location.count_charsBefore_eq_iff _ _ (Nat.sub_le _ _)

theorem line_marked_end (source : String) :
    (Location.ofOffset (marked source) (marked source).utf8ByteSize).line =
      (Location.ofOffset source source.utf8ByteSize).line := by
  rw [Location.line_ofOffset_end, Location.line_ofOffset_end, toList_marked,
    List.count_cons_of_ne (by decide)]

-- ---------------------------------------------------------------------------
-- Faults that are found before the end
-- ---------------------------------------------------------------------------

namespace Markup

/-- Whether the fault is placed at an offset of the reader, not at the end of the source. -/
def Fault.isPlaced : Fault → Bool
  | .neverClosed _ => false
  | _ => true

theorem Fault.isPlaced_of_origin {fault : Fault} (h : fault.origin ≠ .tree) :
    fault.isPlaced = true := by
  cases fault with
  | neverClosed tag => exact absurd rfl h
  | _ => rfl

theorem isPlaced_of_elementOf (h : elementOf content = .error fault) : fault.isPlaced = true :=
  Fault.isPlaced_of_origin (by rw [origin_of_elementOf h]; decide)

theorem Reader.isPlaced_of_next {r : Reader} (h : r.next = .error (fault, place)) :
    fault.isPlaced = true :=
  Fault.isPlaced_of_origin (by rw [origin_of_next h]; decide)

end Markup

-- ---------------------------------------------------------------------------
-- One reading of two sources
-- ---------------------------------------------------------------------------

/-- Two outcomes that differ at most in the place of a fault, which each source gives for
itself. -/
inductive Relocated (source other : String) : Except LayoutError α → Except LayoutError α → Prop
  | value (x : α) : Relocated source other (.ok x) (.ok x)
  | unplaced (error : LayoutError) (h : ∀ fault here, error ≠ .malformed fault here) :
    Relocated source other (.error error) (.error error)
  | placed (offset : Nat) (fault : Fault) (h : fault.isPlaced = true) :
    Relocated source other (.error (.inSource source offset fault))
      (.error (.inSource other offset fault))
  | atEnd (tag : String) :
    Relocated source other (.error (.inSource source source.utf8ByteSize (.neverClosed tag)))
      (.error (.inSource other other.utf8ByteSize (.neverClosed tag)))

namespace Relocated

theorem bind {x y : Except LayoutError α} {f g : α → Except LayoutError β}
    (h : Relocated source other x y) (hf : ∀ v, Relocated source other (f v) (g v)) :
    Relocated source other (x.bind f) (y.bind g) := by
  cases h with
  | value v => exact hf v
  | unplaced error herror => exact .unplaced error herror
  | placed offset fault hfault => exact .placed offset fault hfault
  | atEnd tag => exact .atEnd tag

theorem eq_ok_iff {x y : Except LayoutError α} (h : Relocated source other x y) (v : α) :
    y = .ok v ↔ x = .ok v := by
  cases h with
  | value v => exact Iff.rfl
  | unplaced | placed | atEnd => exact ⟨nofun, nofun⟩

theorem eq_error_iff {x y : Except LayoutError α} (h : Relocated source other x y)
    (herror : ∀ fault here, error ≠ .malformed fault here) :
    y = .error error ↔ x = .error error := by
  cases h with
  | value | unplaced => exact Iff.rfl
  | placed | atEnd =>
    exact ⟨fun h => absurd (Except.error.inj h).symm (herror _ _),
      fun h => absurd (Except.error.inj h).symm (herror _ _)⟩

theorem exists_place {y : Except LayoutError α}
    (h : Relocated source (marked source) (.error (.malformed fault here)) y) :
    ∃ offset there, here = .ofOffset source offset ∧ y = .error (.malformed fault there) ∧
      (there.line = here.line ↔
        (∃ tag, fault = .neverClosed tag) ∨ ¬ FeedJustBefore source offset) := by
  cases h with
  | unplaced _ herror => exact absurd rfl (herror fault here)
  | placed offset _ hfault =>
    refine ⟨offset, _, rfl, rfl, (line_marked_eq_iff source offset).trans (or_iff_right ?_).symm⟩
    rintro ⟨tag, rfl⟩
    cases hfault
  | atEnd tag =>
    exact ⟨source.utf8ByteSize, _, rfl, rfl, iff_of_true (line_marked_end source) (.inl ⟨tag, rfl⟩)⟩

end Relocated

section
variable (limits : Limits) (source other : String)

namespace Assembly

theorem relocated_makeRoom (offset : Nat) (a : Assembly) :
    Relocated source other (a.makeRoom limits source offset) (a.makeRoom limits other offset) := by
  unfold makeRoom
  dsimp only
  repeat' split
  · exact .placed offset _ rfl
  · exact .unplaced _ nofun
  · exact .unplaced _ nofun
  · exact .value _

theorem enter_eq_bind (offset : Nat) (a : Assembly) (content : List Char) :
    a.enter limits source offset content =
      ((elementOf content).mapError (LayoutError.inSource source offset)).bind fun e =>
        (a.makeRoom limits source offset).bind fun a => .ok (e, a) := by
  unfold enter
  cases elementOf content with
  | error fault => rfl
  | ok e => cases a.makeRoom limits source offset <;> rfl

theorem relocated_enter (offset : Nat) (a : Assembly) (content : List Char) :
    Relocated source other (a.enter limits source offset content)
      (a.enter limits other offset content) := by
  rw [enter_eq_bind, enter_eq_bind]
  refine .bind ?_ fun e => (relocated_makeRoom limits source other offset a).bind fun a =>
    .value (e, a)
  cases helement : elementOf content with
  | error fault => exact .placed offset fault (isPlaced_of_elementOf helement)
  | ok e => exact .value e

theorem add_opening_eq_bind (offset : Nat) (a : Assembly) (content : List Char) :
    a.add limits source offset (.opening content) =
      (a.enter limits source offset content).bind fun (e, a) =>
        .ok { a with stack := .ofElement e :: a.stack } := by
  rw [add]
  cases a.enter limits source offset content <;> rfl

theorem add_childless_eq_bind (offset : Nat) (a : Assembly) (content : List Char) :
    a.add limits source offset (.childless content) =
      (a.enter limits source offset content).bind fun (e, a) => .ok (a.attach e) := by
  rw [add]
  cases a.enter limits source offset content <;> rfl

theorem relocated_add (offset : Nat) (a : Assembly) (event : Event) :
    Relocated source other (a.add limits source offset event)
      (a.add limits other offset event) := by
  cases event with
  | ignored => exact .value a
  | opening content =>
    rw [add_opening_eq_bind, add_opening_eq_bind]
    exact (relocated_enter limits source other offset a content).bind fun _ => .value _
  | childless content =>
    rw [add_childless_eq_bind, add_childless_eq_bind]
    exact (relocated_enter limits source other offset a content).bind fun _ => .value _
  | closing name =>
    unfold add
    dsimp only
    repeat' split
    · exact .placed offset _ rfl
    · exact .value _
    · exact .placed offset _ rfl

theorem relocated_finish (a : Assembly) :
    Relocated source other (a.finish source) (a.finish other) := by
  unfold finish
  repeat' split
  · exact .atEnd _
  · exact .unplaced _ nofun
  · exact .value _

end Assembly

namespace Document

theorem relocated_readFrom (r : Reader) (a : Assembly) :
    Relocated source other (readFrom limits source r a) (readFrom limits other r a) := by
  cases hnext : r.next with
  | error located =>
    rw [readFrom_of_error hnext, readFrom_of_error hnext]
    exact .placed located.2 located.1 (Reader.isPlaced_of_next hnext)
  | ok read =>
    cases read with
    | none =>
      rw [readFrom_of_none hnext, readFrom_of_none hnext]
      exact a.relocated_finish source other
    | some step =>
      obtain ⟨event, r'⟩ := step
      have : r'.rest.length < r.rest.length := Reader.next_rest_length hnext
      rw [readFrom_of_some hnext, readFrom_of_some hnext]
      exact (a.relocated_add limits source other r.offset event).bind fun a' =>
        relocated_readFrom r' a'
termination_by r.rest.length

theorem relocated_read (h : source.toList.head? ≠ some Reader.byteOrderMark) :
    Relocated source (marked source) (read limits source) (read limits (marked source)) := by
  rw [read, read, ofSource_marked h]
  exact relocated_readFrom limits source (marked source) _ {}

end Document

end

namespace Document

/-- A leading byte order mark leaves the document and every error without a place as they are,
and the kind of a fault. The fault keeps its line exactly if it is that of an element never
closed or no line feed starts among the three bytes before its offset. -/
theorem read_marked (limits : Limits) (source : String)
    (h : source.toList.head? ≠ some Reader.byteOrderMark) :
    (∀ d, read limits (marked source) = .ok d ↔ read limits source = .ok d) ∧
    (∀ error, (∀ fault here, error ≠ .malformed fault here) →
      (read limits (marked source) = .error error ↔ read limits source = .error error)) ∧
    ∀ fault here, read limits source = .error (.malformed fault here) → ∃ offset there,
      here = .ofOffset source offset ∧
      read limits (marked source) = .error (.malformed fault there) ∧
      (there.line = here.line ↔
        (∃ tag, fault = .neverClosed tag) ∨ ¬ FeedJustBefore source offset) := by
  have hread := relocated_read limits source h
  refine ⟨hread.eq_ok_iff, fun _ => hread.eq_error_iff, fun fault here hhere => ?_⟩
  rw [hhere] at hread
  exact hread.exists_place

/-- A line feed ends the source, and the element never closed is on the second line with and
without the mark. -/
theorem read_marked_unclosed :
    "<a>\n".toList.head? ≠ some Reader.byteOrderMark ∧
      read {} "<a>\n" = .error (.malformed (.neverClosed "a") ⟨2, 1⟩) ∧
      ∃ there, read {} (marked "<a>\n") = .error (.malformed (.neverClosed "a") there) ∧
        there.line = 2 := by
  have hhead : "<a>\n".toList.head? ≠ some Reader.byteOrderMark := by decide
  have hread : read {} "<a>\n" = .error (.malformed (.neverClosed "a") ⟨2, 1⟩) := by
    with_unfolding_all rfl
  obtain ⟨_, there, _, hmarked, hline⟩ := (read_marked {} "<a>\n" hhead).2.2 _ _ hread
  exact ⟨hhead, hread, there, hmarked, hline.mpr (.inl ⟨"a", rfl⟩)⟩

/-- A closing tag on the second line is reported on the first one once a mark stands before the
line feed. -/
theorem read_marked_lineFeed :
    read {} "\n</a>" = .error (.malformed (.unmatchedClose "a") ⟨2, 1⟩) ∧
      read {} (marked "\n</a>") = .error (.malformed (.unmatchedClose "a") ⟨1, 2⟩) := by
  constructor <;> with_unfolding_all rfl

end Document

end LayoutCompose
