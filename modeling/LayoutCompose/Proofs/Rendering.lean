import LayoutCompose.Markup.Ending
import LayoutCompose.Proofs.Tree

/-!
# Texts that stand for a layout

The grammar of the texts that a tree of elements may be written as. It leaves open what
a writer is free to choose: the quotes of a value, the space between attributes, whether
an element without children closes itself, and what stands between the tags.
-/

namespace LayoutCompose.Markup

-- ---------------------------------------------------------------------------
-- Names
-- ---------------------------------------------------------------------------

def inRanges (ranges : List (Nat × Nat)) (c : Char) : Bool :=
  ranges.any fun (first, last) => first ≤ c.toNat && c.toNat ≤ last

def isNameStart : Char → Bool :=
  inRanges [
    (0x3A, 0x3A), (0x41, 0x5A), (0x5F, 0x5F), (0x61, 0x7A), (0xC0, 0xD6), (0xD8, 0xF6),
    (0xF8, 0x2FF), (0x370, 0x37D), (0x37F, 0x1FFF), (0x200C, 0x200D), (0x2070, 0x218F),
    (0x2C00, 0x2FEF), (0x3001, 0xD7FF), (0xF900, 0xFDCF), (0xFDF0, 0xFFFD), (0x10000, 0xEFFFF)]

def isNameChar (c : Char) : Bool :=
  isNameStart c ||
    inRanges [
      (0x2D, 0x2E), (0x30, 0x39), (0xB7, 0xB7), (0x300, 0x36F), (0x203F, 0x2040)] c

def isName : List Char → Bool
  | [] => false
  | c :: rest => isNameStart c && rest.all isNameChar

structure WellNamed (e : Element) : Prop where
  tag : isName e.tag.toList = true
  names : ∀ a ∈ e.attributes, isName a.name.toList = true
  distinct : (e.attributes.map (·.name)).Nodup

-- ---------------------------------------------------------------------------
-- Tags
-- ---------------------------------------------------------------------------

def writeChar (quote c : Char) : List Char :=
  if c = '&' then ['&', 'a', 'm', 'p', ';']
  else if c = '<' then ['&', 'l', 't', ';']
  else if c = '>' then ['&', 'g', 't', ';']
  else if c = quote then
    if c = '"' then ['&', 'q', 'u', 'o', 't', ';'] else ['&', 'a', 'p', 'o', 's', ';']
  else [c]

def writeValue (quote : Char) (value : List Char) : List Char :=
  value.flatMap (writeChar quote)

def IsQuote (c : Char) : Prop := c = '"' ∨ c = '\x27'

def Spaces (cs : List Char) : Prop := ∀ c ∈ cs, isSpace c = true

instance : Decidable (Spaces cs) := List.decidableBAll _ cs

inductive WrittenAttributes : List Attribute → List Char → Prop
  | nil : Spaces gap → WrittenAttributes [] gap
  | cons : Spaces gap → IsQuote quote → WrittenAttributes rest text →
      WrittenAttributes (a :: rest)
        (gap ++ a.name.toList ++ '=' :: quote :: writeValue quote a.value.toList ++ quote :: text)

/-- The content of a start tag: attributes stand apart from the name. -/
inductive WrittenTag (tag : String) (attributes : List Attribute) : List Char → Prop
  | mk : WrittenAttributes attributes text → (∀ c ∈ text.head?, isSpace c = true) →
      WrittenTag tag attributes (tag.toList ++ text)

-- ---------------------------------------------------------------------------
-- Elements
-- ---------------------------------------------------------------------------

/-- Text, comments, character data and instructions, in any number and order. -/
inductive Filler : List Char → Prop
  | nil : Filler []
  | text : '<' ∉ t → Filler rest → Filler (t ++ rest)
  | comment : ¬ ['-', '-', '>'] <:+: t → Filler rest →
      Filler (['<', '!', '-', '-'] ++ t ++ ['-', '-', '>'] ++ rest)
  | characterData : ¬ [']', ']', '>'] <:+: t → Filler rest →
      Filler (['<', '!', '[', 'C', 'D', 'A', 'T', 'A', '['] ++ t ++ [']', ']', '>'] ++ rest)
  | instruction : t ≠ [] → t.head? ≠ some '>' → ¬ ['?', '>'] <:+: t → Filler rest →
      Filler (['<', '?'] ++ t ++ ['?', '>'] ++ rest)

mutual
inductive WrittenElement : Element → List Char → Prop
  | childless : WrittenTag tag attributes content →
      WrittenElement ⟨tag, attributes, []⟩ ('<' :: content ++ ['/', '>'])
  | paired : WrittenTag tag attributes content → WrittenBody children body → Spaces gap →
      WrittenElement ⟨tag, attributes, children⟩
        ('<' :: content ++ '>' :: body ++ '<' :: '/' :: tag.toList ++ gap ++ ['>'])
inductive WrittenBody : List Element → List Char → Prop
  | nil : Filler filler → WrittenBody [] filler
  | cons : Filler filler → WrittenElement e text → WrittenBody rest body →
      WrittenBody (e :: rest) (filler ++ text ++ body)
end

def WrittenDocument (root : Element) (source : String) : Prop :=
  WrittenBody [root] source.toList

end LayoutCompose.Markup
