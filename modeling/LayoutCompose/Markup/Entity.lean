import LayoutCompose.Number.Digit
import LayoutCompose.Text.Search
import LayoutCompose.Markup.Fault

/-!
# Entities in attribute values

An attribute value is written with the five predefined entities and with numeric
character references. Expansion replaces each of them and keeps everything else,
line breaks included.
-/

namespace LayoutCompose.Markup

/-- Reads digits from the left and stops at the first one that is wrong or that
leaves 32 bits. -/
def readCode (base : Nat) (value : Nat) : List Char → Except ReferenceFault Nat
  | [] => .ok value
  | c :: rest =>
    match Number.digitIn? base c with
    | none => .error .badDigit
    | some d =>
      let next := base * value + d
      if next < Nat.pow 2 32 then readCode base next rest else .error .tooLarge

def readUnsigned (base : Nat) : List Char → Except ReferenceFault Nat
  | [] => .error .empty
  | c :: rest => if c == '+' || c == '-' then .error .signed else readCode base 0 (c :: rest)

/-- The character of a reference, given what stands between `&#` and `;`. -/
def characterOf (digits : List Char) : Except ReferenceFault Char := do
  let code ← match digits with
    | 'x' :: hexadecimal => readUnsigned 16 hexadecimal
    | decimal => readUnsigned 10 decimal
  if code = 0 then throw .zero
  else if h : code.isValidChar then pure (Char.ofNatAux code h)
  else throw (.notCharacter code)

def predefined? : List Char → Option Char
  | ['l', 't'] => some '<'
  | ['g', 't'] => some '>'
  | ['a', 'm', 'p'] => some '&'
  | ['a', 'p', 'o', 's'] => some '\x27'
  | ['q', 'u', 'o', 't'] => some '"'
  | _ => none

/-- The character of one entity; `position` is where its name starts in the value. -/
def entity (position : Nat) (name : List Char) : Except Fault Char :=
  match name with
  | '#' :: digits => (characterOf digits).mapError .reference
  | name =>
    match predefined? name with
    | some c => .ok c
    | none =>
      .error (.entityUnknown position (position + Text.byteLength name) (String.ofList name))

/-- Expands a value of `length` bytes from byte `position` on. -/
def expandFrom (length position : Nat) (cs : List Char) : Except Fault (List Char) :=
  let plain := cs.takeWhile (· != '&')
  match hs : cs.dropWhile (· != '&') with
  | [] => .ok plain
  | _ :: rest =>
    let start := position + Text.byteLength plain
    let name := rest.takeWhile fun c => c != '&' && c != ';'
    match ht : rest.dropWhile fun c => c != '&' && c != ';' with
    | ';' :: rest' =>
      have : rest'.length < cs.length := by
        have h₁ := (List.dropWhile_suffix (· != '&') (l := cs)).length_le
        have h₂ := (List.dropWhile_suffix (fun c => c != '&' && c != ';') (l := rest)).length_le
        rw [hs] at h₁
        rw [ht] at h₂
        simp only [List.length_cons] at h₁ h₂
        omega
      match entity (start + 1) name with
      | .error fault => .error fault
      | .ok c =>
        match expandFrom length (start + Text.byteLength name + 2) rest' with
        | .error fault => .error fault
        | .ok expanded => .ok (plain ++ c :: expanded)
    | _ => .error (.entityUnterminated start length)
termination_by cs.length

def expand (value : List Char) : Except Fault (List Char) :=
  expandFrom (Text.byteLength value) 0 value

end LayoutCompose.Markup
