import LayoutCompose.Text.Json
import Mathlib.Data.List.Forall2

/-!
# JSON values and their text

The texts that JSON has for a value, by its grammar: spaces may stand around every value, key and
bracket, and a character of a string may be written in several ways. The lines that a value is laid
out on are one of its texts.
-/

namespace LayoutCompose.JsonValue

-- ---------------------------------------------------------------------------
-- The grammar
-- ---------------------------------------------------------------------------

def spaces : List Char := [' ', '\n', '\r', '\t']

def shortEscapes : List (Char × Char) :=
  [('"', '"'), ('\\', '\\'), ('/', '/'), ('\x08', 'b'), ('\x0c', 'f'), ('\n', 'n'), ('\r', 'r'),
    ('\t', 't')]

inductive Spells : Char → List Char → Prop
  | plain : ' ' ≤ c → c ≠ '"' → c ≠ '\\' → Spells c [c]
  | short : (c, letter) ∈ shortEscapes → Spells c ['\\', letter]
  | digits (values : List (Fin 16)) : digits.length = 4 →
      digits.map Number.hexDigit? = values.map some →
      c.toNat = values.foldl (fun n d => 16 * n + d.val) 0 → Spells c ('\\' :: 'u' :: digits)

inductive SpellsAll : List Char → List Char → Prop
  | nil : SpellsAll [] []
  | cons : Spells c text → SpellsAll cs rest → SpellsAll (c :: cs) (text ++ rest)

/-- How the parts of a list or an object may be written between its brackets. -/
inductive Separated (P : α → List Char → Prop) : List α → List Char → Prop
  | none : (∀ c ∈ text, c ∈ spaces) → Separated P [] text
  | last : P a text → Separated P [a] text
  | cons : P a text → Separated P (b :: rest) others → Separated P (a :: b :: rest) (text ++ ',' :: others)

mutual
inductive HasText : JsonValue → List Char → Prop
  | spaced : (∀ c ∈ before ++ after, c ∈ spaces) → HasText v text →
      HasText v (before ++ text ++ after)
  | true : HasText (.bool true) ['t', 'r', 'u', 'e']
  | false : HasText (.bool false) ['f', 'a', 'l', 's', 'e']
  | string : SpellsAll s.toList text → HasText (.string s) ('"' :: text ++ ['"'])
  | list : Separated HasText items text → HasText (.list items) ('[' :: text ++ [']'])
  | object : Separated FieldHasText fields text →
      HasText (.object fields) ('\x7b' :: text ++ ['\x7d'])
inductive FieldHasText : String × JsonValue → List Char → Prop
  | field : HasText (.string key) name → HasText v text → FieldHasText (key, v) (name ++ ':' :: text)
end

-- ---------------------------------------------------------------------------
-- Strings
-- ---------------------------------------------------------------------------

theorem hexDigit?_escapeDigit (n : Nat) :
    Number.hexDigit? (escapeDigit n) = some (Number.lastDigit n) := by
  have hlower : ∀ d, Number.hexDigit? (Number.hexDigit d).toLower = some d := by decide
  exact hlower _

theorem spells_control (h : c < ' ') :
    Spells c ['\\', 'u', '0', '0', escapeDigit (c.toNat / 16), escapeDigit (c.toNat % 16)] := by
  have hsmall : c.toNat < 32 := h
  have hzero : Number.hexDigit? '0' = some (Number.lastDigit 0) := by decide
  refine .digits ([0, 0, c.toNat / 16, c.toNat % 16].map Number.lastDigit) rfl ?_ ?_
  · simp only [List.map_cons, List.map_nil, hzero, hexDigit?_escapeDigit]
  · simp only [List.map_cons, List.map_nil, List.foldl_cons, List.foldl_nil, Number.lastDigit,
      Fin.ofNat]
    omega

theorem spells_escape (c : Char) : Spells c (escape c) := by
  simp only [escape, beq_iff_eq]
  -- The seven characters with a letter of their own come first.
  iterate 7
    split
    · subst c
      exact .short (by decide)
  split
  · next h => exact spells_control h
  · next hquote hbackslash _ _ _ _ _ hcontrol =>
    exact .plain (Char.not_lt.mp hcontrol) hquote hbackslash

theorem spellsAll_escape (cs : List Char) : SpellsAll cs (cs.flatMap escape) := by
  induction cs with
  | nil => exact .nil
  | cons c cs ih => exact .cons (spells_escape c) ih

theorem hasText_quote (s : String) : HasText (.string s) (quote s).toList := by
  have htext : (quote s).toList = '"' :: s.toList.flatMap escape ++ ['"'] := by
    simp [quote, String.toList_append]
  rw [htext]
  exact .string (spellsAll_escape _)

-- ---------------------------------------------------------------------------
-- Values
-- ---------------------------------------------------------------------------

theorem mem_spaces_of_mem_lineStart (level : Nat) : ∀ c ∈ (lineStart level).toList, c ∈ spaces := by
  simp [lineStart, spaces, String.toList_append]

theorem FieldHasText.spaced (hspaces : ∀ c ∈ before ++ after, c ∈ spaces)
    (h : FieldHasText f text) : FieldHasText f (before ++ text ++ after) := by
  obtain ⟨hbefore, hafter⟩ := List.forall_mem_append.mp hspaces
  cases h with
  | @field key name v text hname hvalue =>
    have hname : HasText (.string key) (before ++ name ++ []) :=
      .spaced (by simpa using hbefore) hname
    have hvalue : HasText v ([] ++ text ++ after) := .spaced hafter hvalue
    simpa using FieldHasText.field hname hvalue

def inner (start after : List Char) (parts : List String) : List Char :=
  start ++ (',' :: start).intercalate (parts.map String.toList) ++ after

/-- Parts on lines of their own are separated, if each may have spaces around it. -/
theorem separated_inner {P : α → List Char → Prop}
    (hP : ∀ {a before text after}, (∀ c ∈ before ++ after, c ∈ spaces) → P a text →
      P a (before ++ text ++ after))
    (hstart : ∀ c ∈ start, c ∈ spaces) (hafter : ∀ c ∈ after, c ∈ spaces)
    (h : List.Forall₂ (fun a part => P a part.toList) (a :: rest) (part :: parts)) :
    Separated P (a :: rest) (inner start after (part :: parts)) := by
  induction rest generalizing a part parts with
  | nil =>
    obtain ⟨hpart, hnil⟩ := List.forall₂_cons.mp h
    obtain rfl := List.forall₂_nil_left_iff.mp hnil
    simpa [inner] using Separated.last (hP (List.forall_mem_append.mpr ⟨hstart, hafter⟩) hpart)
  | cons b rest ih =>
    obtain ⟨hpart, hrest⟩ := List.forall₂_cons.mp h
    obtain ⟨next, others, hnext, hothers, rfl⟩ := List.forall₂_cons_left_iff.mp hrest
    have hfirst : P a (start ++ part.toList ++ []) := hP (by simpa using hstart) hpart
    simpa [inner, List.intercalate_cons_cons] using Separated.cons hfirst (ih hrest)

/-- Parts in a pair of brackets are separated, and nothing but spaces is there without a part. -/
theorem exists_separated {P : α → List Char → Prop}
    (hP : ∀ {a before text after}, (∀ c ∈ before ++ after, c ∈ spaces) → P a text →
      P a (before ++ text ++ after))
    (h : List.Forall₂ (fun a part => P a part.toList) values parts)
    (level : Nat) (opening closing : String) :
    ∃ text, (enclose level opening closing parts).toList =
      opening.toList ++ text ++ closing.toList ∧ Separated P values text := by
  cases h with
  | nil => exact ⟨[], by simp [enclose], .none (List.forall_mem_nil _)⟩
  | cons hpart hrest =>
    refine ⟨_, ?_, separated_inner hP (mem_spaces_of_mem_lineStart (level + 1))
      (mem_spaces_of_mem_lineStart level) (.cons hpart hrest)⟩
    simp [enclose, inner, String.toList_append, String.toList_intercalate]

theorem fieldHasText_layOut (key : String) (h : HasText v text.toList) :
    FieldHasText (key, v) (quote key ++ ": " ++ text).toList := by
  have hvalue : HasText v ([' '] ++ text.toList ++ []) := .spaced (by simp [spaces]) h
  simpa [String.toList_append] using FieldHasText.field (hasText_quote key) hvalue

mutual
/-- What a value is laid out as is a text of it. -/
theorem hasText_layOut (level : Nat) : (v : JsonValue) → HasText v (layOut level v).toList
  | .bool true => by
    rw [layOut]
    exact .true
  | .bool false => by
    rw [layOut]
    exact .false
  | .string s => by
    rw [layOut]
    exact hasText_quote s
  | .list items => by
    obtain ⟨text, htext, hitems⟩ :=
      exists_separated .spaced (forall₂_layOutItems (level + 1) items) level "[" "]"
    rw [layOut, htext]
    exact .list hitems
  | .object fields => by
    obtain ⟨text, htext, hfields⟩ :=
      exists_separated .spaced (forall₂_layOutFields (level + 1) fields) level "\x7b" "\x7d"
    rw [layOut, htext]
    exact .object hfields
theorem forall₂_layOutItems (level : Nat) : (items : List JsonValue) →
    List.Forall₂ (fun v part => HasText v part.toList) items (layOutItems level items)
  | [] => .nil
  | item :: items => .cons (hasText_layOut level item) (forall₂_layOutItems level items)
theorem forall₂_layOutFields (level : Nat) : (fields : List (String × JsonValue)) →
    List.Forall₂ (fun field part => FieldHasText field part.toList) fields
      (layOutFields level fields)
  | [] => .nil
  | (key, v) :: fields =>
    .cons (fieldHasText_layOut key (hasText_layOut level v)) (forall₂_layOutFields level fields)
end

end LayoutCompose.JsonValue
