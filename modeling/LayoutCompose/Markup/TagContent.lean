import LayoutCompose.Layout.Element
import LayoutCompose.Markup.Ending
import LayoutCompose.Markup.Entity

/-!
# The content of a tag

A start tag holds a name and attributes. The name runs to the first space and may
hold anything else. Attributes need no space between them, repeated names are
accepted, and the last value of a name counts.
-/

namespace LayoutCompose.Markup

def nameOf (content : List Char) : List Char :=
  content.takeWhile (!isSpace ·)

/-- An attribute as it is written, and where the content goes on after it. -/
structure Written where
  key : List Char
  value : List Char
  position : Nat
  rest : List Char

/-- The value after `=`; `position` is the byte position of `cs` in the content. -/
def readValue (key : List Char) (position : Nat) (cs : List Char) : Except Fault Written :=
  let start := position + Text.byteLength (cs.takeWhile isSpace)
  match cs.dropWhile isSpace with
  | [] => .error (.valueMissing start)
  | quote :: rest =>
    if quote == '"' || quote == '\x27' then
      let value := rest.takeWhile (· != quote)
      let stop := start + 1 + Text.byteLength value
      match rest.dropWhile (· != quote) with
      | [] => .error (.quoteMissing stop quote)
      | _ :: rest => .ok ⟨key, value, stop + 1, rest⟩
    else .error (.valueUnquoted start)

/-- The attribute that starts at `first`. Its key has at least that character and
ends before the next `=` or space. -/
def readAttribute (position : Nat) (first : Char) (cs : List Char) : Except Fault Written :=
  let isInside := fun c => c != '=' && !isSpace c
  let key := first :: cs.takeWhile isInside
  let after := cs.dropWhile isInside
  let start := position + Text.byteLength key + Text.byteLength (after.takeWhile isSpace)
  match after.dropWhile isSpace with
  | '=' :: rest => readValue key (start + 1) rest
  | _ => .error (.keyWithoutEquals start)

theorem readValue_rest_length {key : List Char} {position : Nat} {cs : List Char} {w : Written}
    (h : readValue key position cs = .ok w) : w.rest.length < cs.length := by
  unfold readValue at h
  have hs := (List.dropWhile_suffix isSpace (l := cs)).length_le
  split at h
  · cases h
  · rename_i quote rest hd
    rw [hd] at hs
    have hq := (List.dropWhile_suffix (· != quote) (l := rest)).length_le
    split at h
    · split at h
      · cases h
      · rename_i rest' hr
        cases h
        rw [hr] at hq
        simp only [List.length_cons] at hs hq ⊢
        omega
    · cases h

theorem readAttribute_rest_length {position : Nat} {first : Char} {cs : List Char} {w : Written}
    (h : readAttribute position first cs = .ok w) : w.rest.length < cs.length := by
  unfold readAttribute at h
  simp only at h
  split at h
  · rename_i rest hr
    have h₁ := readValue_rest_length h
    have h₂ := (List.dropWhile_suffix isSpace
      (l := cs.dropWhile fun c => c != '=' && !isSpace c)).length_le
    have h₃ := (List.dropWhile_suffix (fun c => c != '=' && !isSpace c) (l := cs)).length_le
    rw [hr] at h₂
    simp only [List.length_cons] at h₂
    omega
  · cases h

def readAttributes (position : Nat) (cs : List Char) : Except Fault (List Attribute) :=
  match hs : cs.dropWhile isSpace with
  | [] => .ok []
  | first :: rest =>
    match hw : readAttribute (position + Text.byteLength (cs.takeWhile isSpace)) first rest with
    | .error fault => .error fault
    | .ok written =>
      match expand written.value with
      | .error fault => .error fault
      | .ok value =>
        have : written.rest.length < cs.length := by
          have h₁ := readAttribute_rest_length hw
          have h₂ := (List.dropWhile_suffix isSpace (l := cs)).length_le
          rw [hs] at h₂
          simp only [List.length_cons] at h₂
          omega
        match readAttributes written.position written.rest with
        | .error fault => .error fault
        | .ok attributes =>
          .ok (⟨String.ofList written.key, String.ofList value⟩ :: attributes)
termination_by cs.length

def elementOf (content : List Char) : Except Fault Element :=
  let name := nameOf content
  match readAttributes (Text.byteLength name) (content.dropWhile (!isSpace ·)) with
  | .error fault => .error fault
  | .ok attributes => .ok ⟨String.ofList name, Attribute.putAll [] attributes, []⟩

end LayoutCompose.Markup
