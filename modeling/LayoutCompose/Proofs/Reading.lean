import LayoutCompose.Layout.Document
import LayoutCompose.Proofs.WrittenMarkup

/-!
# Reading undoes writing

Whatever text a tree is written as, reading it gives the tree back, with its height and its
size. The text is followed from its end: if the rest of it completes a document, so does
the rest with one more piece in front.
-/

namespace LayoutCompose

open Markup

namespace Assembly

/-- The assembly with one more complete element and all its figures. -/
def hold (a : Assembly) (e : Element) : Assembly :=
  { a with
    depth := max a.depth (a.stack.length + e.height)
    count := a.count + e.size }.attach e

theorem makeRoom_eq_ok_iff {a a' : Assembly} :
    a.makeRoom limits source offset = .ok a' ↔
      (a.stack = [] → a.root = none) ∧ a.count + 1 ≤ limits.maxElements ∧
        a.stack.length + 1 ≤ limits.maxDepth ∧
        a' = { a with count := a.count + 1, depth := max a.depth (a.stack.length + 1) } := by
  have hroot : (a.stack.isEmpty && a.root.isSome) = true ↔ ¬ (a.stack = [] → a.root = none) := by
    simp [Option.isSome_iff_ne_none]
  simp only [makeRoom]
  split
  · rename_i h
    exact ⟨fun h => (nomatch h), fun h' => absurd h'.1 (hroot.mp h)⟩
  rename_i h
  rw [hroot, Classical.not_not] at h
  split
  · exact ⟨fun h => (nomatch h), fun h' => by omega⟩
  split
  · exact ⟨fun h => (nomatch h), fun h' => by omega⟩
  · constructor
    · intro ha
      cases ha
      exact ⟨h, by omega, by omega, rfl⟩
    · rintro ⟨-, -, -, rfl⟩
      rfl

theorem enter_eq_ok_iff {a a' : Assembly} :
    a.enter limits source offset content = .ok (e, a') ↔
      elementOf content = .ok e ∧ a.makeRoom limits source offset = .ok a' := by
  unfold enter
  cases elementOf content with
  | error fault => simp
  | ok e' =>
    cases a.makeRoom limits source offset with
    | error error => simp
    | ok a'' => simp

/-- The offset counts for the report of an error only. -/
theorem add_of_ok (h : add limits source offset a event = .ok a') (offset' : Nat) :
    add limits source offset' a event = .ok a' := by
  have henter : ∀ {content e a''}, enter limits source offset a content = .ok (e, a'') →
      enter limits source offset' a content = .ok (e, a'') := by
    intro content e a'' h
    rw [enter_eq_ok_iff, makeRoom_eq_ok_iff] at h ⊢
    exact h
  cases event with
  | ignored => exact h
  | opening content =>
    simp only [add] at h ⊢
    split at h
    · cases h
    · rename_i h'
      rw [henter h']
      exact h
  | childless content =>
    simp only [add] at h ⊢
    split at h
    · cases h
    · rename_i h'
      rw [henter h']
      exact h
  | closing name =>
    simp only [add] at h ⊢
    split at h
    · cases h
    · split at h
      · rename_i hname
        simpa [hname] using h
      · cases h

theorem enter_written {a : Assembly} (htag : WrittenTag tag attributes content)
    (hnamed : WellNamed ⟨tag, attributes, children⟩) (hroom : a.stack = [] → a.root = none)
    (hsize : a.count + 1 ≤ limits.maxElements) (hdepth : a.stack.length + 1 ≤ limits.maxDepth) :
    a.enter limits source offset content =
      .ok (⟨tag, attributes, []⟩,
        { a with count := a.count + 1, depth := max a.depth (a.stack.length + 1) }) :=
  enter_eq_ok_iff.mpr ⟨elementOf_written htag hnamed.tag hnamed.names hnamed.distinct,
    makeRoom_eq_ok_iff.mpr ⟨hroom, hsize, hdepth, rfl⟩⟩

theorem hold_count (a : Assembly) (e : Element) : (a.hold e).count = a.count + e.size := by
  unfold hold attach
  split <;> rfl

theorem hold_stack_ne_nil {a : Assembly} (h : a.stack ≠ []) (e : Element) :
    (a.hold e).stack ≠ [] := by
  unfold hold attach
  split <;> simp_all

theorem hold_stack_length {a : Assembly} (h : a.stack ≠ []) (e : Element) :
    (a.hold e).stack.length = a.stack.length := by
  unfold hold attach
  split <;> simp_all

theorem hold_eq_attach (a : Assembly) (tag : String) (attributes : List Attribute)
    (children : List Element) :
    a.hold ⟨tag, attributes, children⟩ =
      attach ⟨a.stack, a.root,
        max (max a.depth (a.stack.length + 1)) (a.stack.length + 1 + Element.heightAll children),
        a.count + 1 + Element.sizeAll children⟩ ⟨tag, attributes, children⟩ := by
  have hdepth : max a.depth (a.stack.length + (Element.heightAll children + 1)) =
      max (max a.depth (a.stack.length + 1)) (a.stack.length + 1 + Element.heightAll children) := by
    omega
  have hcount : a.count + (Element.sizeAll children + 1) =
      a.count + 1 + Element.sizeAll children := by omega
  rw [hold, Element.height, Element.size, hdepth, hcount]

/-- Children go one by one below the innermost open element. -/
theorem foldl_hold (es : List Element) (top : OpenElement) (outer : List OpenElement)
    (root : Option Element) (depth count : Nat) (hdepth : outer.length + 1 ≤ depth) :
    es.foldl hold ⟨top :: outer, root, depth, count⟩ =
      ⟨{ top with children := es.reverse ++ top.children } :: outer, root,
        max depth (outer.length + 1 + Element.heightAll es), count + Element.sizeAll es⟩ := by
  induction es generalizing top depth count with
  | nil => simp [Element.heightAll, Element.sizeAll]; omega
  | cons e es ih =>
    rw [List.foldl_cons, hold, attach]
    simp only
    rw [ih _ _ _ (by omega)]
    simp [Element.heightAll, Element.sizeAll, Nat.add_assoc, Nat.add_max_add_left, Nat.max_assoc]

end Assembly

namespace Document

-- ---------------------------------------------------------------------------
-- One event of a reading
-- ---------------------------------------------------------------------------

theorem readFrom_of_error (h : r.next = .error (fault, offset)) :
    readFrom limits source r a = .error (.inSource source offset fault) := by
  rw [readFrom]
  split <;> simp_all

theorem readFrom_of_none (h : r.next = .ok none) :
    readFrom limits source r a = a.finish source := by
  rw [readFrom]
  split <;> simp_all

theorem readFrom_of_some (h : r.next = .ok (some (event, r'))) :
    readFrom limits source r a =
      (a.add limits source r.offset event).bind (readFrom limits source r') := by
  rw [readFrom]
  split
  · simp_all
  · simp_all
  · rename_i h'
    cases h.symm.trans h'
    cases a.add limits source r.offset event <;> rfl

/-- Reading ends in the document, whatever offset the rest of the text starts at. -/
def Completes (limits : Limits) (source : String) (rest : List Char) (unclosed : List String)
    (a : Assembly) (d : Document) : Prop :=
  ∀ offset, readFrom limits source ⟨offset, rest, unclosed⟩ a = .ok d

section
variable {limits : Limits} {source : String} {a a' : Assembly} {d : Document}

theorem Completes.of_next
    (hnext : ∀ offset, ∃ offset', Reader.next ⟨offset, text, unclosed⟩ =
      .ok (some (event, ⟨offset', rest, unclosed'⟩)))
    (hadd : ∀ offset, a.add limits source offset event = .ok a')
    (h : Completes limits source rest unclosed' a' d) :
    Completes limits source text unclosed a d := by
  intro offset
  obtain ⟨offset', hnext⟩ := hnext offset
  rw [readFrom_of_some hnext, hadd]
  exact h offset'

theorem Completes.of_takes (ht : Reader.Takes text event unclosed unclosed')
    (hadd : ∀ offset, a.add limits source offset event = .ok a')
    (h : Completes limits source rest unclosed' a' d) :
    Completes limits source (text ++ rest) unclosed a d :=
  Completes.of_next (fun offset => ht offset rest) hadd h

theorem Completes.of_spaces (hgap : Spaces gap) (h : Completes limits source rest unclosed a d) :
    Completes limits source (gap ++ rest) unclosed a d := by
  intro offset
  have hnext : Reader.next ⟨offset, gap ++ rest, unclosed⟩ =
      Reader.next ⟨offset + Text.byteLength gap, rest, unclosed⟩ := by
    simp [Reader.next, List.takeWhile_append_of_pos hgap, List.dropWhile_append_of_pos hgap,
      Nat.add_assoc]
  have hrest := h (offset + Text.byteLength gap)
  cases hn : Reader.next ⟨offset + Text.byteLength gap, rest, unclosed⟩ with
  | error error => cases (readFrom_of_error hn).symm.trans hrest
  | ok result =>
    cases result with
    | none => rwa [readFrom_of_none hn, ← readFrom_of_none (hnext.trans hn)] at hrest
    | some read =>
      rw [readFrom_of_some hn] at hrest
      rw [readFrom_of_some (hnext.trans hn)]
      cases hadd : a.add limits source (offset + Text.byteLength gap) read.1 with
      | error error => simp [hadd, Except.bind] at hrest
      | ok a' =>
        rw [hadd] at hrest
        rw [Assembly.add_of_ok hadd offset]
        exact hrest

/-- A stretch of text before a tag, or at the end, is read over. -/
theorem Completes.of_text (ht : '<' ∉ t) (hrest : ∀ c ∈ rest.head?, c = '<')
    (h : Completes limits source rest unclosed a d) :
    Completes limits source (t ++ rest) unclosed a d := by
  have hsplit := List.takeWhile_append_dropWhile (p := isSpace) (l := t)
  have hgap : Spaces (t.takeWhile isSpace) := fun c hc => List.mem_takeWhile_imp hc
  rw [← hsplit, List.append_assoc]
  refine Completes.of_spaces hgap ?_
  cases hd : t.dropWhile isSpace with
  | nil => exact h
  | cons c text =>
    have hc : isSpace c = false := by
      have := List.head?_dropWhile_not isSpace t
      rw [hd] at this
      simpa using this
    have htext : '<' ∉ c :: text := fun hm => ht (by
      rw [← hsplit, hd]
      exact List.mem_append_right _ hm)
    exact Completes.of_next (fun offset => Reader.next_of_text hc htext hrest offset) (fun _ => rfl) h

/-- What stands between the tags is read over. -/
theorem Completes.of_filler (hf : Filler f) (hrest : ∀ c ∈ rest.head?, c = '<')
    (h : Completes limits source rest unclosed a d) :
    Completes limits source (f ++ rest) unclosed a d := by
  -- text may be followed by more text, so the induction carries the text before the filler
  have hpending : ∀ t, '<' ∉ t → Completes limits source (t ++ f ++ rest) unclosed a d := by
    induction hf with
    | nil => exact fun t ht => by simpa using h.of_text ht hrest
    | @text t' f ht' _ ih =>
      intro t ht
      simpa using ih (t ++ t') (by simp [ht, ht'])
    | @comment t' f ht' _ ih =>
      intro t ht
      have h := Completes.of_takes (Reader.takes_comment ht') (fun _ => rfl) (ih [] (by simp))
      simpa using h.of_text ht (by simp)
    | @characterData t' f ht' _ ih =>
      intro t ht
      have h := Completes.of_takes (Reader.takes_characterData ht') (fun _ => rfl) (ih [] (by simp))
      simpa using h.of_text ht (by simp)
    | @instruction t' f _ hs ht' _ ih =>
      intro t ht
      have h := Completes.of_takes (Reader.takes_instruction hs ht') (fun _ => rfl) (ih [] (by simp))
      simpa using h.of_text ht (by simp)
  simpa using hpending [] (by simp)

-- ---------------------------------------------------------------------------
-- Elements
-- ---------------------------------------------------------------------------

theorem Completes.of_childless (htag : WrittenTag tag attributes content)
    (hnamed : WellNamed ⟨tag, attributes, []⟩) (hroom : a.stack = [] → a.root = none)
    (hsize : a.count + 1 ≤ limits.maxElements) (hdepth : a.stack.length + 1 ≤ limits.maxDepth)
    (h : Completes limits source rest unclosed (a.hold ⟨tag, attributes, []⟩) d) :
    Completes limits source ('<' :: content ++ ['/', '>'] ++ rest) unclosed a d := by
  refine .of_takes (Reader.takes_childless htag hnamed.tag hnamed.names) (fun offset => ?_) h
  rw [Assembly.add, Assembly.enter_written htag hnamed hroom hsize hdepth]
  rfl

theorem Completes.of_opening (htag : WrittenTag tag attributes content)
    (hnamed : WellNamed ⟨tag, attributes, children⟩) (hroom : a.stack = [] → a.root = none)
    (hsize : a.count + 1 ≤ limits.maxElements) (hdepth : a.stack.length + 1 ≤ limits.maxDepth)
    (h : Completes limits source rest (tag :: unclosed)
      ⟨⟨tag, attributes, []⟩ :: a.stack, a.root, max a.depth (a.stack.length + 1), a.count + 1⟩ d) :
    Completes limits source ('<' :: content ++ ['>'] ++ rest) unclosed a d := by
  refine .of_takes (Reader.takes_opening htag hnamed.tag hnamed.names) (fun offset => ?_) h
  rw [Assembly.add, Assembly.enter_written htag hnamed hroom hsize hdepth]
  rfl

theorem Completes.of_closing (htag : isName tag.toList = true) (hgap : Spaces gap)
    (h : Completes limits source rest unclosed (a.attach ⟨tag, attributes, children⟩) d) :
    Completes limits source ('<' :: '/' :: tag.toList ++ gap ++ ['>'] ++ rest) (tag :: unclosed)
      { a with stack := ⟨tag, attributes, children.reverse⟩ :: a.stack } d := by
  refine .of_takes (Reader.takes_closing htag hgap) (fun offset => ?_) h
  simp [Assembly.add, OpenElement.close]

mutual
/-- A written element leads to an assembly that holds the element. -/
theorem Completes.of_element {e : Element} {text : List Char} (h : WrittenElement e text)
    (rest : List Char) (unclosed : List String) (a : Assembly)
    (hnamed : ∀ d, e.Contains d → WellNamed d) (hroom : a.stack = [] → a.root = none)
    (hsize : a.count + e.size ≤ limits.maxElements)
    (hdepth : a.stack.length + e.height ≤ limits.maxDepth)
    (hdone : Completes limits source rest unclosed (a.hold e) d) :
    Completes limits source (text ++ rest) unclosed a d :=
  match h with
  | @WrittenElement.childless tag attributes content htag => by
    simp only [Element.size, Element.height] at hsize hdepth
    exact .of_childless htag (hnamed _ .root) hroom (by omega) (by omega) hdone
  | @WrittenElement.paired tag attributes content children body gap htag hbody hgap => by
    have hroot := hnamed _ .root
    simp only [Element.size, Element.height] at hsize hdepth
    rw [Assembly.hold_eq_attach] at hdone
    have hclosing := Completes.of_closing hroot.tag hgap hdone
    have hinner := Completes.of_body hbody
      ('<' :: '/' :: tag.toList ++ gap ++ ['>'] ++ rest) (tag :: unclosed)
      ⟨⟨tag, attributes, []⟩ :: a.stack, a.root, max a.depth (a.stack.length + 1), a.count + 1⟩
      (fun c hc d hd => hnamed d (.child hc hd)) (by simp) (by simp only; omega)
      (by simp only [List.length_cons]; omega) (by simp)
      (by
        rw [Assembly.foldl_hold _ _ _ _ _ _ (by omega)]
        simpa using hclosing)
    simpa using Completes.of_opening htag hroot hroom (by omega) (by omega) hinner
theorem Completes.of_body {es : List Element} {text : List Char} (h : WrittenBody es text)
    (rest : List Char) (unclosed : List String) (a : Assembly)
    (hnamed : ∀ e ∈ es, ∀ d, e.Contains d → WellNamed d)
    (hstack : a.stack ≠ []) (hsize : a.count + Element.sizeAll es ≤ limits.maxElements)
    (hdepth : a.stack.length + Element.heightAll es ≤ limits.maxDepth)
    (hrest : ∀ c ∈ rest.head?, c = '<')
    (hdone : Completes limits source rest unclosed (es.foldl Assembly.hold a) d) :
    Completes limits source (text ++ rest) unclosed a d :=
  match h with
  | .nil hf => Completes.of_filler hf hrest hdone
  | @WrittenBody.cons filler e text es body hf he hb => by
    simp only [Element.sizeAll, Element.heightAll] at hsize hdepth
    have hlater := Completes.of_body hb rest unclosed (a.hold e)
      (fun e' he' => hnamed e' (by simp [he'])) (Assembly.hold_stack_ne_nil hstack e)
      (by rw [Assembly.hold_count]; omega) (by rw [Assembly.hold_stack_length hstack]; omega) hrest hdone
    have hfirst := Completes.of_element he _ unclosed a (hnamed e (by simp))
      (fun h => absurd h hstack) (by omega) (by omega) hlater
    simpa using Completes.of_filler hf he.head_eq hfirst
end

theorem Completes.of_document {root : Element} (h : WrittenBody [root] text)
    (hnamed : ∀ e, root.Contains e → WellNamed e) (hdepth : root.height ≤ limits.maxDepth)
    (hsize : root.size ≤ limits.maxElements) :
    Completes limits source text [] {} ⟨root, root.height, root.size⟩ := by
  cases h with
  | @cons filler _ text _ body hf he hb =>
    cases hb with
    | nil hend =>
      have hdone : Completes limits source [] [] (Assembly.hold {} root)
          ⟨root, root.height, root.size⟩ := by
        intro offset
        rw [readFrom_of_none rfl]
        simp [Assembly.hold, Assembly.attach, Assembly.finish]
      have hrest : Completes limits source body [] (Assembly.hold {} root)
          ⟨root, root.height, root.size⟩ := by
        simpa using Completes.of_filler hend (by simp) hdone
      have hroot := Completes.of_element he body [] {} hnamed (fun _ => rfl) (by simpa using hsize)
        (by simpa using hdepth) hrest
      simpa using Completes.of_filler hf he.head_eq hroot

/-- Reading gives back every tree from every text that it may be written as. -/
theorem read_written (root : Element) (hnamed : ∀ e, root.Contains e → WellNamed e)
    (source : String) (hsource : WrittenDocument root source) (limits : Limits)
    (hdepth : root.height ≤ limits.maxDepth) (hsize : root.size ≤ limits.maxElements) :
    read limits source = .ok ⟨root, root.height, root.size⟩ := by
  have hcompletes : ∀ {text}, WrittenBody [root] text →
      Completes limits source text [] {} ⟨root, root.height, root.size⟩ :=
    fun h => .of_document h hnamed hdepth hsize
  unfold WrittenDocument at hsource
  unfold read Reader.ofSource
  split
  · rename_i c rest hc
    rw [hc] at hsource
    split
    · rename_i hmark
      obtain rfl : c = Reader.byteOrderMark := by simpa using hmark
      exact hcompletes (hsource.of_cons (by decide)) 0
    · exact hcompletes hsource 0
  · rename_i hc
    rw [hc] at hsource
    exact hcompletes hsource 0

end

def sampleRoot : Element :=
  ⟨"a", [⟨"k", "<\""⟩], [⟨"b", [], []⟩]⟩

def sampleText : String := "<?x?><!-->--><a\tk='&lt;\"'>t<b/><![CDATA[]]]></a >u"

theorem sampleText_written : WrittenDocument sampleRoot sampleText := by
  have hbefore : Filler "<?x?><!-->-->".toList :=
    @Filler.instruction ['x'] _ (by decide) (by decide) (by decide)
      (@Filler.comment ['>'] _ (by decide) .nil)
  have htag : WrittenTag "a" sampleRoot.attributes "a\tk='&lt;\"'".toList :=
    @WrittenTag.mk "a" _ _
      (@WrittenAttributes.cons ['\t'] '\x27' _ _ ⟨"k", "<\""⟩ (by decide) (.inr rfl)
        (@WrittenAttributes.nil [] (by decide))) (by rintro _ ⟨⟩; decide)
  have hchild : WrittenElement ⟨"b", [], []⟩ "<b/>".toList :=
    .childless (@WrittenTag.mk "b" [] _ (@WrittenAttributes.nil [] (by decide)) (by simp))
  have hbody : WrittenBody sampleRoot.children "t<b/><![CDATA[]]]>".toList :=
    .cons (@Filler.text ['t'] _ (by decide) .nil) hchild
      (.nil (@Filler.characterData [']'] _ (by decide) .nil))
  exact .cons hbefore (@WrittenElement.paired "a" _ _ _ _ [' '] htag hbody (by decide))
    (.nil (@Filler.text ['u'] _ (by decide) .nil))

theorem sampleRoot_named : ∀ e, sampleRoot.Contains e → WellNamed e := by
  intro e h
  cases h with
  | root => exact ⟨by decide, by decide, by decide⟩
  | child hc hd =>
    simp only [sampleRoot, List.mem_singleton] at hc
    subst hc
    cases hd with
    | root => exact ⟨by decide, by decide, by decide⟩
    | child hc _ => cases hc

theorem read_sampleText : read {} sampleText = .ok ⟨sampleRoot, 2, 2⟩ :=
  read_written sampleRoot sampleRoot_named sampleText sampleText_written {} (by decide) (by decide)

end Document

end LayoutCompose
