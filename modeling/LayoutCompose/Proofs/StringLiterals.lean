import LayoutCompose.Code.Literal

/-!
# What a string literal says

A text with backslash escapes is read part by part, where a backslash and the character after it
are one part. Quoting a layout text rewrites it one part at a time, so what a compiler meets in a
literal follows from the parts of the layout text.
-/

namespace LayoutCompose.Literal

-- ---------------------------------------------------------------------------
-- Parts of a text with escapes
-- ---------------------------------------------------------------------------

inductive Part where
  | plain (c : Char)
  /-- A backslash and the character after it. -/
  | escape (c : Char)
  /-- A backslash with nothing after it. -/
  | cut
  deriving DecidableEq, Repr

def parts : List Char → List Part
  | [] => []
  | ['\\'] => [.cut]
  | '\\' :: c :: rest => .escape c :: parts rest
  | c :: rest => .plain c :: parts rest

theorem parts_cons_of_ne (hc : c ≠ '\\') (rest : List Char) :
    parts (c :: rest) = .plain c :: parts rest := by
  rw [parts]
  · rintro rfl
    exact (hc rfl).elim
  · rintro _ _ rfl
    exact (hc rfl).elim

/-- A character that starts no escape, as the cases of `parts` and `body` say it. -/
theorem ne_of_single {rest : List Char} (hlast : c = '\\' → rest = [] → False)
    (hslash : ∀ d more, c = '\\' → rest = d :: more → False) : c ≠ '\\' := by
  rintro rfl
  cases rest with
  | nil => exact hlast rfl rfl
  | cons d more => exact hslash d more rfl rfl

theorem parts_of_not_mem (h : '\\' ∉ l) : parts l = l.map .plain := by
  induction l with
  | nil => rfl
  | cons c l ih =>
    obtain ⟨hc, hl⟩ := List.ne_and_not_mem_of_not_mem_cons h
    rw [parts_cons_of_ne (Ne.symm hc), ih hl, List.map_cons]

/-- Where no part is cut off, what follows is read for itself. -/
theorem parts_append (h : .cut ∉ parts a) (b : List Char) :
    parts (a ++ b) = parts a ++ parts b := by
  fun_induction parts a with
  | case1 => rfl
  | case2 => exact (h List.mem_cons_self).elim
  | case3 c rest ih =>
    exact congrArg (.escape c :: ·) (ih (List.not_mem_of_not_mem_cons h))
  | case4 c rest hlast hslash ih =>
    rw [List.cons_append, parts_cons_of_ne (ne_of_single hlast hslash),
      ih (List.not_mem_of_not_mem_cons h), List.cons_append]

theorem mem_iff_mem_parts (hc : c ≠ '\\') (l : List Char) :
    c ∈ l ↔ .plain c ∈ parts l ∨ .escape c ∈ parts l := by
  fun_induction parts l with
  | case1 => simp
  | case2 => simp [hc]
  | case3 d rest ih => simp [hc, ih]; grind
  | case4 d rest _ _ ih => simp [ih]; grind

-- ---------------------------------------------------------------------------
-- Quoting part by part
-- ---------------------------------------------------------------------------

def Part.quoted : Part → Part
  | .plain '"' => .escape '"'
  | .plain '$' => .escape '$'
  | .plain '\n' => .escape 'n'
  | .plain '\r' => .escape 'r'
  | .plain c => .plain c
  | .escape 'n' => .escape 'n'
  | .escape 't' => .escape 't'
  | .escape '\\' => .escape '\\'
  | .escape '"' => .escape '"'
  | .escape 'u' => .escape 'u'
  | .escape c => .plain c
  | .cut => .escape '\\'

theorem parts_plain (hc : c ≠ '\\') (rest : List Char) :
    parts (plain c ++ rest) = (Part.plain c).quoted :: parts rest := by
  unfold plain Part.quoted
  split <;> simp_all [parts, parts_cons_of_ne]

theorem parts_escaped (c : Char) (rest : List Char) :
    parts (escaped c ++ rest) = (Part.escape c).quoted :: parts rest := by
  unfold escaped Part.quoted
  split <;> simp_all [parts, parts_cons_of_ne]

theorem parts_body (l : List Char) : parts (body l) = (parts l).map Part.quoted := by
  fun_induction body l with
  | case1 => rfl
  | case2 => rfl
  | case3 c rest ih => rw [parts_escaped, ih]; rfl
  | case4 c rest hlast hslash ih =>
    have hc := ne_of_single hlast hslash
    rw [parts_plain hc, ih, parts_cons_of_ne hc, List.map_cons]

theorem quoted_eq_plain (h : Part.quoted p = .plain c) :
    p = .plain c ∧ c ∉ ['"', '$', '\n', '\r'] ∨ p = .escape c ∧ c ∉ ['n', 't', '\\', '"', 'u'] := by
  unfold Part.quoted at h
  split at h <;> simp_all

theorem quoted_eq_escape (h : Part.quoted p = .escape c) :
    c ∈ ['"', '$', 'n', 'r', 't', '\\', 'u'] := by
  unfold Part.quoted at h
  split at h <;> cases h <;> decide

theorem quoted_ne_cut (p : Part) : p.quoted ≠ .cut := by
  unfold Part.quoted
  split <;> simp

theorem cut_not_mem_body (l : List Char) : .cut ∉ parts (body l) := by
  rw [parts_body]
  intro h
  obtain ⟨p, -, hp⟩ := List.mem_map.mp h
  exact quoted_ne_cut p hp

theorem quote_not_mem_body (l : List Char) : .plain '"' ∉ parts (body l) := by
  rw [parts_body]
  intro h
  obtain ⟨p, -, hp⟩ := List.mem_map.mp h
  rcases quoted_eq_plain hp with ⟨-, hc⟩ | ⟨-, hc⟩ <;> exact hc (by decide)

-- ---------------------------------------------------------------------------
-- Templates and line breaks
-- ---------------------------------------------------------------------------

/-- A character that is escaped for itself stands alone in a literal only where the layout text has
a backslash before it, which quoting drops. -/
theorem plain_mem_body_iff (hc : c ∈ ['$', '\n', '\r']) (l : List Char) :
    .plain c ∈ parts (body l) ↔ .escape c ∈ parts l := by
  rw [parts_body, List.mem_map]
  constructor
  · rintro ⟨p, hp, hquoted⟩
    rcases quoted_eq_plain hquoted with ⟨rfl, hplain⟩ | ⟨rfl, -⟩
    · exact (hplain (List.mem_cons_of_mem _ hc)).elim
    · exact hp
  · intro h
    refine ⟨_, h, ?_⟩
    simp only [List.mem_cons, List.not_mem_nil, or_false] at hc
    rcases hc with rfl | rfl | rfl <;> rfl

theorem break_mem_body_iff (hc : c ∈ ['\n', '\r']) (l : List Char) :
    c ∈ body l ↔ .escape c ∈ parts l := by
  have hslash : c ≠ '\\' := by
    rintro rfl
    simp at hc
  have hescape : .escape c ∉ parts (body l) := by
    rw [parts_body]
    intro h
    obtain ⟨p, -, hp⟩ := List.mem_map.mp h
    have hescaped := quoted_eq_escape hp
    simp only [List.mem_cons, List.not_mem_nil, or_false] at hc
    rcases hc with rfl | rfl <;> simp at hescaped
  rw [mem_iff_mem_parts hslash, or_iff_left hescape,
    plain_mem_body_iff (List.mem_cons_of_mem _ hc)]

/-- Between the quotes of a literal, a dollar sign that no backslash escapes and a line break come
from a backslash before such a character in the layout text, and from nothing else. -/
theorem quote_exposes_iff (raw : String) :
    ∃ inner, (quote raw).toList = '"' :: inner ++ ['"'] ∧
      (.plain '$' ∈ parts inner ↔ .escape '$' ∈ parts raw.toList) ∧
      ('\n' ∈ inner ↔ .escape '\n' ∈ parts raw.toList) ∧
      ('\r' ∈ inner ↔ .escape '\r' ∈ parts raw.toList) :=
  ⟨body raw.toList, String.toList_ofList, plain_mem_body_iff (by decide) _,
    break_mem_body_iff (by decide) _, break_mem_body_iff (by decide) _⟩

/-- A backslash exposes a dollar sign and a line break. -/
theorem quote_escapedDollar :
    (quote "a\\$b\\\nc").toList = '"' :: ['a', '$', 'b', '\n', 'c'] ++ ['"'] ∧
      Part.plain '$' ∈ parts ['a', '$', 'b', '\n', 'c'] ∧ '\n' ∈ ['a', '$', 'b', '\n', 'c'] := by
  decide

-- ---------------------------------------------------------------------------
-- Delimiters and decoding
-- ---------------------------------------------------------------------------

/-- The character that a part of a literal stands for. Only the escapes of quotes, dollar signs
and line breaks are read, and these characters only so. -/
def Part.char? : Part → Option Char
  | .plain c => if c ∈ ['"', '$', '\n', '\r'] then none else some c
  | .escape '"' => some '"'
  | .escape '$' => some '$'
  | .escape 'n' => some '\n'
  | .escape 'r' => some '\r'
  | _ => none

def decode (inner : List Char) : Option (List Char) :=
  (parts inner).mapM Part.char?

theorem char?_quoted_plain (c : Char) : (Part.plain c).quoted.char? = some c := by
  by_cases hc : c ∈ ['"', '$', '\n', '\r']
  · simp only [List.mem_cons, List.not_mem_nil, or_false] at hc
    rcases hc with rfl | rfl | rfl | rfl <;> rfl
  · have hplain : (Part.plain c).quoted = .plain c := by
      unfold Part.quoted
      split <;> simp_all
    rw [hplain]
    exact if_neg hc

theorem decode_body (h : '\\' ∉ l) : decode (body l) = some l := by
  rw [decode, parts_body, parts_of_not_mem h]
  clear h
  induction l with
  | nil => rfl
  | cons c l ih =>
    rw [List.map_cons, List.map_cons, List.mapM_cons, char?_quoted_plain, ih]
    rfl

/-- A literal ends with its last character and not before, and a layout text without backslashes
can be read back from it. -/
theorem quote_delimited (raw : String) :
    ∃ inner, (quote raw).toList = '"' :: inner ++ ['"'] ∧
      (∃ before, parts (inner ++ ['"']) = before ++ [.plain '"'] ∧
        .plain '"' ∉ before ∧ .cut ∉ before) ∧
      ('\\' ∉ raw.toList → decode inner = some raw.toList) := by
  refine ⟨body raw.toList, String.toList_ofList, ⟨parts (body raw.toList), ?_, ?_, ?_⟩, decode_body⟩
  · exact parts_append (cut_not_mem_body _) ['"']
  · exact quote_not_mem_body _
  · exact cut_not_mem_body _

theorem quote_delimited_price :
    '\\' ∉ "\"$5\"\r\n".toList ∧
      ∃ inner, (quote "\"$5\"\r\n").toList = '"' :: inner ++ ['"'] ∧
        decode inner = some "\"$5\"\r\n".toList := by
  obtain ⟨inner, htext, -, hdecode⟩ := quote_delimited "\"$5\"\r\n"
  exact ⟨by decide, inner, htext, hdecode (by decide)⟩

end LayoutCompose.Literal
