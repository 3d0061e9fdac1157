/-!
# Blank characters

Blank means Unicode's `White_Space` property, which is wider than the four
characters of `Char.isWhitespace`. Trimming takes every blank character from
the end concerned.
-/

namespace LayoutCompose.Text

def isBlank (c : Char) : Bool :=
  let n := c.toNat
  (0x09 ≤ n && n ≤ 0x0D) || n == 0x20 || n == 0x85 || n == 0xA0 || n == 0x1680 ||
    (0x2000 ≤ n && n ≤ 0x200A) || n == 0x2028 || n == 0x2029 || n == 0x202F || n == 0x205F ||
    n == 0x3000

def dropEnd (p : α → Bool) (l : List α) : List α :=
  (l.reverse.dropWhile p).reverse

theorem dropEnd_append_of_all {p : α → Bool} {l t : List α} (h : ∀ a ∈ t, p a = true) :
    dropEnd p (l ++ t) = dropEnd p l := by
  simp only [dropEnd, List.reverse_append]
  rw [List.dropWhile_append_of_pos]
  simpa using h

theorem dropEnd_concat_of_neg {p : α → Bool} {l : List α} {a : α} (h : p a = false) :
    dropEnd p (l ++ [a]) = l ++ [a] := by
  simp [dropEnd, h]

def trimChars (l : List Char) : List Char :=
  dropEnd isBlank (l.dropWhile isBlank)

theorem isPrefix_trimChars (l : List Char) : trimChars l <+: l.dropWhile isBlank := by
  rw [trimChars, dropEnd, ← List.reverse_suffix, List.reverse_reverse]
  exact List.dropWhile_suffix isBlank

theorem isInfix_trimChars (l : List Char) : trimChars l <:+: l :=
  (isPrefix_trimChars l).isInfix.trans (List.dropWhile_suffix isBlank).isInfix

def trim (s : String) : String :=
  String.ofList (trimChars s.toList)

def isBlankText (s : String) : Bool :=
  s.toList.all isBlank

end LayoutCompose.Text
