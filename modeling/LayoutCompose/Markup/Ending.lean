/-!
# Where a piece of markup ends

Markup runs from `<` to a `>`. Which `>` it is depends on the kind of markup, and
each kind is described by an `Ending`: a state moved by every character, and the
states in which a `>` ends the markup.
-/

namespace LayoutCompose.Markup

def isSpace (c : Char) : Bool :=
  c == ' ' || c == '\t' || c == '\r' || c == '\n'

structure Ending (σ : Type) where
  start : σ
  step : σ → Char → σ
  closes : σ → Bool

namespace Ending

/-- Splits before and after the ending `>`, with what was read so far in reverse. -/
def splitFrom (ending : Ending σ) (state : σ) (read : List Char) :
    List Char → Option (List Char × List Char)
  | [] => none
  | c :: rest =>
    if c == '>' && ending.closes state then some (read.reverse, rest)
    else ending.splitFrom (ending.step state c) (c :: read) rest

/-- The content up to the ending `>`, and what follows that character. -/
def split (ending : Ending σ) (cs : List Char) : Option (List Char × List Char) :=
  ending.splitFrom ending.start [] cs

theorem splitFrom_eq_append {ending : Ending σ} {cs content rest : List Char} :
    ∀ {state read}, ending.splitFrom state read cs = some (content, rest) →
      content ++ '>' :: rest = read.reverse ++ cs := by
  induction cs with
  | nil => intro state read h; simp [splitFrom] at h
  | cons c cs ih =>
    intro state read h
    rw [splitFrom] at h
    split at h
    · rename_i hc
      simp only [Bool.and_eq_true, beq_iff_eq] at hc
      simp only [Option.some.injEq, Prod.mk.injEq] at h
      rw [← h.1, ← h.2, hc.1]
    · simpa using ih h

/-- Nothing is lost but the ending `>`. -/
theorem split_eq_append {ending : Ending σ} {cs content rest : List Char}
    (h : ending.split cs = some (content, rest)) : content ++ '>' :: rest = cs := by
  simpa using splitFrom_eq_append h

theorem length_lt_of_split {ending : Ending σ} {cs content rest : List Char}
    (h : ending.split cs = some (content, rest)) : rest.length < cs.length := by
  rw [← split_eq_append h]
  simp
  omega

/-- A tag ends at the first `>` outside quotes; the state is the open quote. -/
def tag : Ending (Option Char) where
  start := none
  step
    | some quote, c => if c == quote then none else some quote
    | none, c => if c == '"' || c == '\x27' then some c else none
  closes := Option.isNone

/-- A comment ends at a `>` after `--`, though never within its opening; the state
counts the characters read and the dashes read last. -/
def comment : Ending (Nat × Nat) where
  start := (0, 0)
  step
    | (count, dashes), c => (count + 1, if c == '-' then dashes + 1 else 0)
  closes
    | (count, dashes) => 4 < count && 2 ≤ dashes

/-- Character data ends at a `>` after `]]`; the state counts the brackets read last. -/
def characterData : Ending Nat where
  start := 0
  step brackets c := if c == ']' then brackets + 1 else 0
  closes brackets := 2 ≤ brackets

/-- A document type ends at the `>` that no inner `<` opened; the state counts the
inner ones that are open. -/
def doctype : Ending Nat where
  start := 0
  step inner c := if c == '<' then inner + 1 else if c == '>' then inner - 1 else inner
  closes inner := inner == 0

/-- An instruction ends at a `>` after `?`; the state tells whether `?` was read last. -/
def instruction : Ending Bool where
  start := false
  step _ c := c == '?'
  closes marked := marked

end Ending

end LayoutCompose.Markup
