import LayoutCompose.Layout.Error
import LayoutCompose.Text.Search
import Mathlib.Data.List.DropRight
import Mathlib.Data.Prod.Lex

/-!
# Lines and columns

The location of a fault is found in one pass that stops at its byte. It is the same as counting
among all characters that start before that byte: the line feeds give the line, and the
characters after the last of them the column. Every character moves the location on, in
reading order, so a place between two characters is known by its line and column.
-/

namespace LayoutCompose

theorem Text.byteLength_toList (source : String) :
    byteLength source.toList = source.utf8ByteSize := by
  have hencode (cs : List Char) : cs.utf8Encode.size = byteLength cs := by
    induction cs with
    | nil => rfl
    | cons c cs ih =>
      rw [List.utf8Encode_cons, ByteArray.size_append, ih, List.utf8Encode_singleton]
      simp
  rw [← hencode, String.utf8Encode_toList, String.size_toByteArray]

namespace Location

-- ---------------------------------------------------------------------------
-- The characters before an offset
-- ---------------------------------------------------------------------------

def charsBefore : List Char → Nat → List Char
  | [], _ => []
  | c :: cs, bytes => if bytes = 0 then [] else c :: charsBefore cs (bytes - c.utf8Size)

@[simp] theorem charsBefore_zero (cs : List Char) : charsBefore cs 0 = [] := by
  cases cs <;> rfl

theorem charsBefore_cons (c : Char) (cs : List Char) (h : 0 < bytes) :
    charsBefore (c :: cs) bytes = c :: charsBefore cs (bytes - c.utf8Size) :=
  if_neg (Nat.pos_iff_ne_zero.mp h)

/-- Past the end nothing is left to count. -/
theorem charsBefore_of_le (h : Text.byteLength cs ≤ bytes) : charsBefore cs bytes = cs := by
  induction cs generalizing bytes with
  | nil => rfl
  | cons c cs ih =>
    rw [Text.byteLength_cons] at h
    have hsize := c.utf8Size_pos
    rw [charsBefore_cons c cs (by omega), ih (by omega)]

theorem walk_eq_foldl (cs : List Char) (bytes : Nat) (here : Location) :
    walk cs bytes here = (charsBefore cs bytes).foldl advance here := by
  induction cs generalizing bytes here with
  | nil => rfl
  | cons c cs ih =>
    rw [walk, charsBefore]
    split
    · rfl
    · exact ih _ _

theorem line_foldl_advance (cs : List Char) (here : Location) :
    (cs.foldl advance here).line = here.line + cs.count '\n' := by
  induction cs generalizing here with
  | nil => rfl
  | cons c cs ih =>
    rw [List.foldl_cons, ih, advance]
    by_cases hc : c = '\n'
    · subst hc
      simp only [if_pos, List.count_cons_self]
      omega
    · rw [if_neg hc, List.count_cons_of_ne hc]

/-- A line is numbered by the line feeds before it. -/
theorem line_ofOffset (source : String) (offset : Nat) :
    (ofOffset source offset).line = 1 + (charsBefore source.toList offset).count '\n' := by
  rw [ofOffset, walk_eq_foldl, line_foldl_advance]
  rfl

theorem line_ofOffset_end (source : String) :
    (ofOffset source source.utf8ByteSize).line = 1 + source.toList.count '\n' := by
  rw [line_ofOffset, charsBefore_of_le (Text.byteLength_toList source).le]

-- ---------------------------------------------------------------------------
-- Characters by the byte at which they start
-- ---------------------------------------------------------------------------

/-- The characters of a text whose first one starts at `first`, each with the byte at which its
encoding starts. -/
def starts (first : Nat) : List Char → List (Nat × Char)
  | [] => []
  | c :: cs => (first, c) :: starts (first + c.utf8Size) cs

def startingBefore (source : String) (offset : Nat) : List Char :=
  ((starts 0 source.toList).filter (·.1 < offset)).map (·.2)

theorem le_of_mem_starts (h : entry ∈ starts first cs) : first ≤ entry.1 := by
  induction cs generalizing first with
  | nil => cases h
  | cons c cs ih =>
    rcases List.mem_cons.mp h with rfl | h
    · exact Nat.le_refl _
    · exact Nat.le_trans (Nat.le_add_right _ _) (ih h)

theorem filter_starts (cs : List Char) (first offset : Nat) :
    ((starts first cs).filter (·.1 < offset)).map (·.2) = charsBefore cs (offset - first) := by
  induction cs generalizing first with
  | nil => rfl
  | cons c cs ih =>
    by_cases hfirst : first < offset
    · rw [charsBefore_cons c cs (by omega), Nat.sub_sub, ← ih, starts,
        List.filter_cons_of_pos (by simpa using hfirst)]
      rfl
    · -- none of the later characters starts before the offset either
      have hnone : (starts first (c :: cs)).filter (·.1 < offset) = [] := by
        rw [List.filter_eq_nil_iff]
        intro entry hentry
        have := le_of_mem_starts hentry
        simp only [decide_eq_true_eq]
        omega
      rw [hnone, Nat.sub_eq_zero_of_le (by omega), charsBefore_zero]
      rfl

theorem startingBefore_eq (source : String) (offset : Nat) :
    startingBefore source offset = charsBefore source.toList offset :=
  filter_starts source.toList 0 offset

-- ---------------------------------------------------------------------------
-- The column
-- ---------------------------------------------------------------------------

theorem column_foldl_advance (cs : List Char) :
    (cs.foldl advance start).column = 1 + (cs.rtakeWhile (· != '\n')).length := by
  induction cs using List.reverseRecOn with
  | nil => rfl
  | append_singleton cs c ih =>
    rw [List.foldl_concat, advance, List.rtakeWhile_concat]
    by_cases hc : c = '\n'
    · simp [hc]
    · simp [hc, ih, Nat.add_assoc]

theorem ofOffset_eq (source : String) (offset : Nat) :
    ofOffset source offset =
      ⟨1 + (startingBefore source offset).count '\n',
        1 + ((startingBefore source offset).rtakeWhile (· != '\n')).length⟩ := by
  rw [startingBefore_eq, ← line_ofOffset, ← column_foldl_advance, ← walk_eq_foldl]
  rfl

-- ---------------------------------------------------------------------------
-- Reading order
-- ---------------------------------------------------------------------------

def rank (here : Location) : Nat ×ₗ Nat := toLex (here.line, here.column)

theorem rank_lt_advance (here : Location) (c : Char) : here.rank < (here.advance c).rank := by
  rw [rank, rank, Prod.Lex.toLex_lt_toLex, advance]
  split
  · exact .inl (Nat.lt_succ_self here.line)
  · exact .inr ⟨rfl, Nat.lt_succ_self here.column⟩

theorem rank_le_foldl (cs : List Char) (here : Location) :
    here.rank ≤ (cs.foldl advance here).rank := by
  induction cs generalizing here with
  | nil => exact le_rfl
  | cons c cs ih => exact (rank_lt_advance here c).le.trans (ih (here.advance c))

theorem rank_lt_foldl {cs : List Char} (h : cs ≠ []) (here : Location) :
    here.rank < (cs.foldl advance here).rank := by
  cases cs with
  | nil => exact absurd rfl h
  | cons c cs => exact (rank_lt_advance here c).trans_le (rank_le_foldl cs _)

-- ---------------------------------------------------------------------------
-- Places between characters
-- ---------------------------------------------------------------------------

theorem charsBefore_append (before after : List Char) :
    charsBefore (before ++ after) (Text.byteLength before) = before := by
  induction before with
  | nil => exact charsBefore_zero after
  | cons c before ih =>
    have hsize := c.utf8Size_pos
    rw [Text.byteLength_cons, List.cons_append, charsBefore_cons _ _ (by omega),
      Nat.add_sub_cancel_left, ih]

/-- A place between characters has the text before it on its one side. -/
theorem exists_before {source : String} (p : source.Pos) :
    ∃ before, before <+: source.toList ∧ Text.byteLength before = p.offset.byteIdx ∧
      ofOffset source p.offset.byteIdx = before.foldl advance start := by
  obtain ⟨before, after, rfl, hp⟩ := String.Pos.Raw.isValid_iff_exists_append.mp p.isValid
  have hlength : Text.byteLength before.toList = p.offset.byteIdx := by
    rw [hp, Text.byteLength_toList]
    rfl
  refine ⟨before.toList, ?_, hlength, ?_⟩
  · rw [String.toList_append]
    exact List.prefix_append _ _
  · rw [ofOffset, walk_eq_foldl, String.toList_append, ← hlength, charsBefore_append]

theorem rank_lt_rank {source : String} {p q : source.Pos} (h : p < q) :
    (ofOffset source p.offset.byteIdx).rank < (ofOffset source q.offset.byteIdx).rank := by
  obtain ⟨before, hbefore, hp, hlocation⟩ := exists_before p
  obtain ⟨before', hbefore', hq, hlocation'⟩ := exists_before q
  have hlt : Text.byteLength before < Text.byteLength before' := by
    rw [hp, hq]
    exact h
  -- of two beginnings of one text the one with fewer bytes begins the other
  rcases List.prefix_or_prefix_of_prefix hbefore hbefore' with ⟨between, rfl⟩ | ⟨between, rfl⟩
  · have hne : between ≠ [] := by
      rintro rfl
      simp at hlt
    rw [hlocation, hlocation', List.foldl_append]
    exact rank_lt_foldl hne _
  · rw [Text.byteLength_append] at hlt
    omega

theorem ofOffset_injective (source : String) :
    Function.Injective fun p : source.Pos => ofOffset source p.offset.byteIdx := by
  intro p q hsame
  have hrank : (ofOffset source p.offset.byteIdx).rank = (ofOffset source q.offset.byteIdx).rank :=
    congrArg rank hsame
  rcases Nat.lt_trichotomy p.offset.byteIdx q.offset.byteIdx with hlt | heq | hlt
  · exact absurd hrank (rank_lt_rank hlt).ne
  · exact String.Pos.ext (String.Pos.Raw.ext heq)
  · exact absurd hrank (rank_lt_rank hlt).ne'

theorem ofOffset_of_le (source : String) (h : source.utf8ByteSize ≤ offset) :
    ofOffset source offset = ofOffset source source.utf8ByteSize := by
  have hend {bytes : Nat} (hbytes : source.utf8ByteSize ≤ bytes) :
      charsBefore source.toList bytes = source.toList :=
    charsBefore_of_le (Text.byteLength_toList source ▸ hbytes)
  rw [ofOffset, ofOffset, walk_eq_foldl, walk_eq_foldl, hend h, hend le_rfl]

end Location

/-- A fault is placed at the line and the column that the characters starting before its byte
make up. The places between characters have locations in their own order, all of them
different, and a byte past the end has the location of the end. -/
theorem LayoutError.inSource_location (source : String) :
    (∀ offset fault, inSource source offset fault = malformed fault
      ⟨1 + (Location.startingBefore source offset).count '\n',
        1 + ((Location.startingBefore source offset).rtakeWhile (· != '\n')).length⟩) ∧
    (∀ p q : source.Pos, p < q →
      (Location.ofOffset source p.offset.byteIdx).rank <
        (Location.ofOffset source q.offset.byteIdx).rank) ∧
    (Function.Injective fun p : source.Pos => Location.ofOffset source p.offset.byteIdx) ∧
    ∀ offset, source.utf8ByteSize ≤ offset →
      Location.ofOffset source offset = Location.ofOffset source source.utf8ByteSize := by
  refine ⟨fun offset fault => ?_, fun p q => Location.rank_lt_rank,
    Location.ofOffset_injective source, fun offset => Location.ofOffset_of_le source⟩
  rw [inSource, Location.ofOffset_eq]

/-- The second byte of the first character, and a byte past the end. -/
theorem LayoutError.inSource_location_accent :
    inSource "é\nb" 1 .secondRoot = malformed .secondRoot ⟨1, 2⟩ ∧
      "é\nb".startPos < "é\nb".endPos ∧
      (Location.ofOffset "é\nb" 0).rank < (Location.ofOffset "é\nb" 4).rank ∧
      "é\nb".utf8ByteSize ≤ 9 ∧ Location.ofOffset "é\nb" 9 = ⟨2, 2⟩ := by
  obtain ⟨hlocation, hrank, -, hend⟩ := inSource_location "é\nb"
  have hlt : "é\nb".startPos < "é\nb".endPos := by decide
  have hle : "é\nb".utf8ByteSize ≤ 9 := by decide
  exact ⟨hlocation 1 .secondRoot, hlt, hrank _ _ hlt, hle, hend 9 hle⟩

end LayoutCompose
