import LayoutCompose.Proofs.Reading

/-!
# The shape of a document

While a document is read, its elements are spread over the open elements and the root. What
stays put is the list of start tags in document order, each on its level: an event adds one
at the end or none at all. The counts that are kept on the way are figures of this list,
and at the end the list is the outline of the tree.
-/

namespace LayoutCompose

open Markup

-- ---------------------------------------------------------------------------
-- Attributes
-- ---------------------------------------------------------------------------

namespace Attribute

def Distinct (attributes : List Attribute) : Prop := (attributes.map (·.name)).Nodup

theorem names_put (name value : String) (attributes : List Attribute) :
    (put name value attributes).map (·.name) =
      if name ∈ attributes.map (·.name) then attributes.map (·.name)
      else attributes.map (·.name) ++ [name] := by
  induction attributes with
  | nil => simp [put]
  | cons a rest ih =>
    by_cases ha : a.name = name
    · simp [put, ha]
    · simp only [put, if_neg ha, List.map_cons, ih, List.mem_cons, Ne.symm ha, false_or]
      split <;> rfl

theorem Distinct.put (h : Distinct attributes) (name value : String) :
    Distinct (put name value attributes) := by
  unfold Distinct at h ⊢
  rw [names_put]
  split
  · exact h
  · rename_i hname
    refine List.nodup_append.mpr ⟨h, by simp, ?_⟩
    rintro a ha b hb rfl
    exact hname (by simpa [List.mem_singleton.mp hb] using ha)

theorem Distinct.putAll (h : Distinct present) (new : List Attribute) :
    Distinct (putAll present new) := by
  unfold Attribute.putAll
  induction new generalizing present with
  | nil => exact h
  | cons a new ih => exact ih (h.put a.name a.value)

end Attribute

theorem Markup.elementOf_eq_ok (h : elementOf content = .ok e) :
    e.children = [] ∧ Attribute.Distinct e.attributes := by
  simp only [elementOf] at h
  split at h
  · cases h
  · cases h
    have hempty : Attribute.Distinct [] := List.nodup_nil
    exact ⟨rfl, hempty.putAll _⟩

-- ---------------------------------------------------------------------------
-- Start tags
-- ---------------------------------------------------------------------------

structure Heading where
  level : Nat
  tag : String
  attributes : List Attribute

def Heading.of (entry : Nat × Element) : Heading :=
  ⟨entry.1, entry.2.tag, entry.2.attributes⟩

namespace Element

def headings (level : Nat) (e : Element) : List Heading :=
  (e.outline level).map .of

def headingsAll (level : Nat) (es : List Element) : List Heading :=
  (outlineAll level es).map .of

theorem headings_eq (level : Nat) (e : Element) :
    e.headings level = ⟨level, e.tag, e.attributes⟩ :: headingsAll (level + 1) e.children := by
  rw [headings, outline_eq]
  rfl

theorem headingsAll_concat (level : Nat) (es : List Element) (e : Element) :
    headingsAll level (es ++ [e]) = headingsAll level es ++ e.headings level := by
  simp [headingsAll, headings, outlineAll_eq_flatMap]

theorem length_headings (level : Nat) (e : Element) : (e.headings level).length = e.size := by
  rw [headings, List.length_map, length_outline]

theorem deepest_headings (e : Element) : deepest ((e.headings 1).map (·.level)) = e.height := by
  have h := e.deepest_outline 0
  simpa [headings, Heading.of, Function.comp_def] using h

end Element

def OpenElement.headings : List OpenElement → List Heading
  | [] => []
  | e :: outer =>
    headings outer ++ ⟨outer.length + 1, e.tag, e.attributes⟩ ::
      Element.headingsAll (outer.length + 2) e.children.reverse

namespace Assembly

def headings (a : Assembly) : List Heading :=
  (a.root.map (Element.headings 1)).getD [] ++ OpenElement.headings a.stack

theorem headings_attach {a : Assembly} (hroot : a.stack = [] → a.root = none) (e : Element) :
    (a.attach e).headings = a.headings ++ e.headings (a.stack.length + 1) := by
  cases a with
  | mk stack root depth count =>
    cases stack with
    | nil =>
      obtain rfl : root = none := hroot rfl
      simp [attach, headings, OpenElement.headings]
    | cons top outer =>
      simp [attach, headings, OpenElement.headings, Element.headingsAll_concat]

theorem headings_push (a : Assembly) (hchildren : e.children = []) :
    { a with stack := .ofElement e :: a.stack }.headings =
      a.headings ++ [⟨a.stack.length + 1, e.tag, e.attributes⟩] := by
  simp [headings, OpenElement.headings, OpenElement.ofElement, hchildren, Element.headingsAll,
    Element.outlineAll]

theorem headings_of_stack {a : Assembly} (h : a.stack = top :: outer) :
    a.headings = { a with stack := outer }.headings ++ top.close.headings (outer.length + 1) := by
  simp [headings, h, OpenElement.headings, OpenElement.close, Element.headings_eq]

@[simp] theorem attach_count (a : Assembly) (e : Element) : (a.attach e).count = a.count := by
  unfold attach
  split <;> rfl

@[simp] theorem attach_depth (a : Assembly) (e : Element) : (a.attach e).depth = a.depth := by
  unfold attach
  split <;> rfl

/-- There is no root yet while elements are open. -/
def RootLast (a : Assembly) : Prop := a.stack ≠ [] → a.root = none

theorem RootLast.attach {a : Assembly} (h : a.RootLast) (e : Element) : (a.attach e).RootLast := by
  unfold Assembly.attach
  split
  · rename_i hstack
    exact fun hne => absurd hstack hne
  · rename_i hstack
    exact fun _ => h (by simp [hstack])

end Assembly

-- ---------------------------------------------------------------------------
-- One event
-- ---------------------------------------------------------------------------

/-- The limit that an element exceeds by its place in document order, which counts from
one, or else by its level. -/
def Limits.excess? (limits : Limits) (place level : Nat) : Option LayoutError :=
  if limits.maxElements < place then some (.tooLarge limits.maxElements)
  else if limits.maxDepth < level then some (.tooDeep limits.maxDepth)
  else none

theorem Limits.excess?_eq_none_iff {limits : Limits} :
    limits.excess? place level = none ↔ place ≤ limits.maxElements ∧ level ≤ limits.maxDepth := by
  unfold excess?
  split
  · exact ⟨fun h => (nomatch h), fun h => by omega⟩
  split
  · exact ⟨fun h => (nomatch h), fun h => by omega⟩
  · exact ⟨fun _ => by omega, fun _ => rfl⟩

theorem Limits.excess?_eq_some {limits : Limits} (h : limits.excess? place level = some error) :
    error = .tooLarge limits.maxElements ∨ error = .tooDeep limits.maxDepth := by
  unfold excess? at h
  split at h
  · exact .inl (Option.some.inj h).symm
  split at h
  · exact .inr (Option.some.inj h).symm
  · cases h

def acceptUnless (reason : Option LayoutError) (x : α) : Except LayoutError α :=
  match reason with
  | some error => .error error
  | none => .ok x

@[simp] theorem acceptUnless_none (x : α) : acceptUnless none x = .ok x := rfl

@[simp] theorem acceptUnless_some (error : LayoutError) (x : α) :
    acceptUnless (some error) x = .error error := rfl

theorem acceptUnless_map (reason : Option LayoutError) (x : α) (f : α → β) :
    (acceptUnless reason x).map f = acceptUnless reason (f x) := by
  cases reason <;> rfl

theorem acceptUnless_eq_ok_iff : acceptUnless reason x = .ok y ↔ reason = none ∧ x = y := by
  cases reason <;> simp

namespace Assembly

def counted (a : Assembly) : Assembly :=
  { a with count := a.count + 1, depth := max a.depth (a.stack.length + 1) }

theorem makeRoom_eq {a : Assembly} (hroom : a.stack = [] → a.root = none) :
    a.makeRoom limits source offset =
      acceptUnless (limits.excess? (a.count + 1) (a.stack.length + 1)) a.counted := by
  have hroot : (a.stack.isEmpty && a.root.isSome) = false := by
    cases hstack : a.stack with
    | nil => simp [hroom hstack]
    | cons top outer => rfl
  simp only [makeRoom, hroot, Bool.false_eq_true, if_false, Limits.excess?]
  split
  · rfl
  split <;> rfl

theorem enter_of_element (a : Assembly) (he : elementOf content = .ok e) :
    a.enter limits source offset content =
      (a.makeRoom limits source offset).map fun a' => (e, a') := by
  simp only [enter, he]
  cases a.makeRoom limits source offset <;> rfl

theorem enter_map_eq_ok {a a' : Assembly} {f : Element × Assembly → Assembly}
    (h : (a.enter limits source offset content).map f = .ok a') :
    ∃ e, elementOf content = .ok e ∧ (a.stack = [] → a.root = none) ∧ a' = f (e, a.counted) := by
  cases henter : a.enter limits source offset content with
  | error error =>
    rw [henter] at h
    cases h
  | ok entered =>
    obtain ⟨e, a₁⟩ := entered
    rw [henter] at h
    cases h
    obtain ⟨he, hroom⟩ := enter_eq_ok_iff.mp henter
    obtain ⟨hroot, -, -, rfl⟩ := makeRoom_eq_ok_iff.mp hroom
    exact ⟨e, he, hroot, rfl⟩

/-- What a start tag comes to, and `f` of it, under any limits once it is within some. -/
theorem enter_map_cases {a a' : Assembly} {f : Element × Assembly → Assembly}
    (h : (a.enter limits source offset content).map f = .ok a') :
    ∃ e, a' = f (e, a.counted) ∧ e.children = [] ∧ Attribute.Distinct e.attributes ∧
      (a.stack = [] → a.root = none) ∧
      ∀ limits', (a.enter limits' source offset content).map f =
        acceptUnless (limits'.excess? (a.count + 1) (a.stack.length + 1)) a' := by
  obtain ⟨e, he, hroot, rfl⟩ := enter_map_eq_ok h
  obtain ⟨hchildren, hdistinct⟩ := elementOf_eq_ok he
  refine ⟨e, rfl, hchildren, hdistinct, hroot, fun limits' => ?_⟩
  rw [enter_of_element a he, makeRoom_eq hroot, acceptUnless_map, acceptUnless_map]

theorem add_opening (a : Assembly) :
    a.add limits source offset (.opening content) =
      (a.enter limits source offset content).map
        fun (e, a') => { a' with stack := .ofElement e :: a'.stack } := by
  rw [add]
  cases a.enter limits source offset content <;> rfl

theorem add_childless (a : Assembly) :
    a.add limits source offset (.childless content) =
      (a.enter limits source offset content).map fun (e, a') => a'.attach e := by
  rw [add]
  cases a.enter limits source offset content <;> rfl

structure Idles (a a' : Assembly) : Prop where
  headings : a'.headings = a.headings
  count : a'.count = a.count
  depth : a'.depth = a.depth

structure Takes (heading : Heading) (a a' : Assembly) : Prop where
  level : heading.level = a.stack.length + 1
  distinct : Attribute.Distinct heading.attributes
  headings : a'.headings = a.headings ++ [heading]
  count : a'.count = a.count + 1
  depth : a'.depth = max a.depth heading.level

/-- What a step comes to that succeeds under some limits. Limits count for start tags only. -/
theorem add_cases {a a' : Assembly} (hroot : a.RootLast)
    (h : a.add limits source offset event = .ok a') :
    a'.RootLast ∧
      ((a.Idles a' ∧ ∀ limits', a.add limits' source offset event = .ok a') ∨
        ∃ heading, a.Takes heading a' ∧ ∀ limits', a.add limits' source offset event =
          acceptUnless (limits'.excess? (a.count + 1) heading.level) a') := by
  cases event with
  | ignored =>
    cases h
    exact ⟨hroot, .inl ⟨⟨rfl, rfl, rfl⟩, fun _ => rfl⟩⟩
  | opening content =>
    simp only [add_opening] at h ⊢
    obtain ⟨e, rfl, hchildren, hdistinct, hroom, hall⟩ := enter_map_cases h
    refine ⟨fun _ => ?_, .inr ⟨⟨a.stack.length + 1, e.tag, e.attributes⟩,
      ⟨rfl, hdistinct, headings_push a hchildren, rfl, rfl⟩, hall⟩⟩
    by_cases hstack : a.stack = []
    · exact hroom hstack
    · exact hroot hstack
  | childless content =>
    simp only [add_childless] at h ⊢
    obtain ⟨e, rfl, hchildren, hdistinct, hroom, hall⟩ := enter_map_cases h
    have hheadings := headings_attach (a := a.counted) hroom e
    rw [Element.headings_eq, hchildren] at hheadings
    exact ⟨RootLast.attach (a := a.counted) hroot e,
      .inr ⟨⟨a.stack.length + 1, e.tag, e.attributes⟩,
        ⟨rfl, hdistinct, hheadings, attach_count _ e, attach_depth _ e⟩, hall⟩⟩
  | closing name =>
    simp only [add] at h ⊢
    cases hstack : a.stack with
    | nil => simp [hstack] at h
    | cons top outer =>
      simp only [hstack] at h ⊢
      split at h
      · rename_i hname
        cases h
        have hnone : a.root = none := hroot (by simp [hstack])
        have hout : RootLast { a with stack := outer } := fun _ => hnone
        refine ⟨hout.attach top.close, .inl ⟨⟨?_, by simp, by simp⟩, fun _ => by rw [if_pos hname]⟩⟩
        -- what is closed was open last, so that its start tags stay at the end
        rw [headings_of_stack hstack]
        exact headings_attach (a := { a with stack := outer }) (fun _ => hnone) top.close
      · cases h

-- ---------------------------------------------------------------------------
-- A whole reading
-- ---------------------------------------------------------------------------

/-- The figures of an assembly are those of the start tags that it has read. -/
structure Sound (limits : Limits) (a : Assembly) : Prop where
  rootLast : a.RootLast
  count : a.count = a.headings.length
  depth : a.depth = Element.deepest (a.headings.map (·.level))
  count_le : a.count ≤ limits.maxElements
  depth_le : a.depth ≤ limits.maxDepth
  distinct : ∀ heading ∈ a.headings, Attribute.Distinct heading.attributes

theorem Sound.empty (limits : Limits) : Sound limits {} where
  rootLast := fun _ => rfl
  count := rfl
  depth := rfl
  count_le := Nat.zero_le _
  depth_le := Nat.zero_le _
  distinct := fun _ h => nomatch h

theorem Sound.add {a a' : Assembly} (ha : a.Sound limits)
    (h : a.add limits source offset event = .ok a') : a'.Sound limits := by
  obtain ⟨hroot, ⟨hidle, -⟩ | ⟨heading, htakes, hlimits⟩⟩ := add_cases ha.rootLast h
  · refine ⟨hroot, ?_, ?_, ?_, ?_, ?_⟩
    · rw [hidle.count, hidle.headings, ha.count]
    · rw [hidle.depth, hidle.headings, ha.depth]
    · exact hidle.count ▸ ha.count_le
    · exact hidle.depth ▸ ha.depth_le
    · exact hidle.headings ▸ ha.distinct
  · obtain ⟨hexcess, -⟩ := acceptUnless_eq_ok_iff.mp ((hlimits limits).symm.trans h)
    obtain ⟨hplace, hlevel⟩ := Limits.excess?_eq_none_iff.mp hexcess
    refine ⟨hroot, ?_, ?_, ?_, ?_, ?_⟩
    · rw [htakes.count, htakes.headings, ha.count, List.length_append, List.length_singleton]
    · rw [htakes.depth, htakes.headings, ha.depth]
      simp
    · rw [htakes.count]
      exact hplace
    · rw [htakes.depth]
      exact Nat.max_le.mpr ⟨ha.depth_le, hlevel⟩
    · rw [htakes.headings]
      intro heading' hmem
      rcases List.mem_append.mp hmem with hmem | hmem
      · exact ha.distinct heading' hmem
      · obtain rfl := List.mem_singleton.mp hmem
        exact htakes.distinct

theorem finish_eq_ok {a : Assembly} (h : a.finish source = .ok d) :
    d.depth = a.depth ∧ d.count = a.count ∧ a.headings = d.root.headings 1 := by
  unfold finish at h
  split at h
  · cases h
  · rename_i hstack
    split at h
    · cases h
    · rename_i root hroot
      cases h
      exact ⟨rfl, rfl, by simp [headings, hroot, hstack, OpenElement.headings]⟩

end Assembly

namespace Document

structure WellShaped (limits : Limits) (d : Document) : Prop where
  depth : d.depth = d.root.height
  count : d.count = d.root.size
  depth_le : d.depth ≤ limits.maxDepth
  count_le : d.count ≤ limits.maxElements
  distinct : ∀ e, d.root.Contains e → (e.attributes.map (·.name)).Nodup

theorem WellShaped.of_finish {a : Assembly} (ha : a.Sound limits) (h : a.finish source = .ok d) :
    d.WellShaped limits := by
  obtain ⟨hdepth, hcount, hheadings⟩ := Assembly.finish_eq_ok h
  refine ⟨?_, ?_, hdepth ▸ ha.depth_le, hcount ▸ ha.count_le, fun e he => ?_⟩
  · rw [hdepth, ha.depth, hheadings, Element.deepest_headings]
  · rw [hcount, ha.count, hheadings, Element.length_headings]
  · obtain ⟨level, hmem⟩ := he.exists_mem_outline 1
    exact ha.distinct ⟨level, e.tag, e.attributes⟩
      (hheadings ▸ List.mem_map_of_mem (f := Heading.of) hmem)

theorem WellShaped.of_readFrom {a : Assembly} (ha : a.Sound limits)
    (h : readFrom limits source r a = .ok d) : d.WellShaped limits := by
  fun_induction readFrom limits source r a with
  | case1 => cases h
  | case2 => exact .of_finish ha h
  | case3 => cases h
  | case4 r a event r' hnext hlt a' hadd ih => exact ih (ha.add hadd) h

/-- Every document that is accepted has the shape that it was accepted for. -/
theorem wellShaped_of_read (h : read limits source = .ok d) : d.WellShaped limits :=
  .of_readFrom (.empty limits) h

theorem wellShaped_repeatedName :
    read ⟨2, 3⟩ "<a k='1' k='2'><b/><c></c></a>" =
        .ok ⟨⟨"a", [⟨"k", "2"⟩], [⟨"b", [], []⟩, ⟨"c", [], []⟩]⟩, 2, 3⟩ ∧
      WellShaped ⟨2, 3⟩ ⟨⟨"a", [⟨"k", "2"⟩], [⟨"b", [], []⟩, ⟨"c", [], []⟩]⟩, 2, 3⟩ := by
  have h : read ⟨2, 3⟩ "<a k='1' k='2'><b/><c></c></a>" =
      .ok ⟨⟨"a", [⟨"k", "2"⟩], [⟨"b", [], []⟩, ⟨"c", [], []⟩]⟩, 2, 3⟩ := by
    with_unfolding_all rfl
  exact ⟨h, wellShaped_of_read h⟩

end Document

end LayoutCompose
