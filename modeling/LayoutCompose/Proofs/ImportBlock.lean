import LayoutCompose.Proofs.Brackets
import LayoutCompose.Proofs.Imports

/-!
# The import block

The imports of a layout are those of every file and what each element asks for that becomes a call.
So the order of children does not matter, however deep in the layout they are. The block
has one line for each path, and the paths increase from line to line.
-/

namespace LayoutCompose

namespace Element

/-- The same tree with the children of some of its elements in another order. -/
inductive Rearranged : Element → Element → Prop
  | perm {tag : String} {attributes : List Attribute} {before after : List Element} :
      before.Perm after → Rearranged ⟨tag, attributes, before⟩ ⟨tag, attributes, after⟩
  | child {tag : String} {attributes : List Attribute} {left right : List Element}
      {old new : Element} : Rearranged old new →
      Rearranged ⟨tag, attributes, left ++ old :: right⟩ ⟨tag, attributes, left ++ new :: right⟩
  | trans : Rearranged a b → Rearranged b c → Rearranged a c

end Element

namespace Import

variable {a b root : Element}

-- ---------------------------------------------------------------------------
-- What a tree asks for
-- ---------------------------------------------------------------------------

def Asks (root : Element) (i : Import) : Prop := ∃ d, root.Visits d ∧ i ∈ ofElement d

/-- An element asks for an import by itself or through a child. -/
theorem asks_iff : Asks root i ↔
    (Widget.ofTag root.tag).isOpaque = false ∧
      ((Widget.ofTag root.tag).isCall = true ∧ i ∈ ofElement root ∨
        ∃ c ∈ root.children, Asks c i) := by
  constructor
  · rintro ⟨d, hvisits, hi⟩
    cases hopen : (Widget.ofTag root.tag).isOpaque with
    | true => exact (root.not_visits_of_isOpaque hopen hvisits).elim
    | false =>
      refine ⟨rfl, ?_⟩
      rcases (root.visits_iff hopen).mp hvisits with ⟨hcall, rfl⟩ | ⟨c, hc, hvisits⟩
      · exact .inl ⟨hcall, hi⟩
      · exact .inr ⟨c, hc, d, hvisits, hi⟩
  · rintro ⟨hopen, ⟨hcall, hi⟩ | ⟨c, hc, d, hvisits, hi⟩⟩
    · exact ⟨root, .root hcall, hi⟩
    · exact ⟨d, .child hopen hc hvisits, hi⟩

/-- All that matters of the children of an element is what they ask for together. -/
theorem asks_congr {before after : List Element}
    (h : (∃ c ∈ before, Asks c i) ↔ ∃ c ∈ after, Asks c i) :
    Asks ⟨tag, attributes, before⟩ i ↔ Asks ⟨tag, attributes, after⟩ i := by
  rw [asks_iff, asks_iff]
  exact and_congr_right fun _ => or_congr_right h

theorem asks_of_rearranged (h : a.Rearranged b) : Asks a i ↔ Asks b i := by
  induction h with
  | perm hperm => exact asks_congr (exists_congr fun c => and_congr_left fun _ => hperm.mem_iff)
  | child _ ih =>
    apply asks_congr
    simp only [List.mem_append, List.mem_cons, or_and_right, exists_or, exists_eq_left, ih]
  | trans _ _ ih ih' => exact ih.trans ih'

theorem ofLayout_of_rearranged (h : a.Rearranged b) : ofLayout b = ofLayout a := by
  apply ofLayout_eq_of_mem_iff
  intro i
  rw [mem_ofLayout, mem_ofLayout]
  exact or_congr_right (asks_of_rearranged h).symm

theorem mem_paths_iff {p : String} : p ∈ paths root ↔
    p ∈ always.map path ∨ ∃ d, root.Visits d ∧ p ∈ (ofElement d).map path := by
  constructor
  · intro h
    obtain ⟨i, hi, rfl⟩ := List.mem_map.mp h
    rcases mem_ofLayout.mp hi with halways | ⟨d, hvisits, hi⟩
    · exact .inl (List.mem_map_of_mem halways)
    · exact .inr ⟨d, hvisits, List.mem_map_of_mem hi⟩
  · rintro (halways | ⟨d, hvisits, h⟩)
    · obtain ⟨i, hi, rfl⟩ := List.mem_map.mp halways
      exact List.mem_map_of_mem (mem_ofLayout.mpr (.inl hi))
    · obtain ⟨i, hi, rfl⟩ := List.mem_map.mp h
      exact List.mem_map_of_mem (mem_ofLayout.mpr (.inr ⟨d, hvisits, hi⟩))

-- ---------------------------------------------------------------------------
-- Lines
-- ---------------------------------------------------------------------------

theorem pairwise_paths (root : Element) :
    (paths root).Pairwise fun p q => Text.bytes p < Text.bytes q := by
  rw [paths, List.pairwise_map]
  exact pairwise_all.filter _

theorem isLine_path (i : Import) : Text.IsLine i.path := by
  cases i <;> exact Text.isLine_ofList (by decide)

theorem paths_ne_nil (root : Element) : paths root ≠ [] :=
  List.ne_nil_of_mem (path_mem_paths.mpr (mem_ofLayout.mpr (.inl List.mem_cons_self)))

theorem splitOn_block (root : Element) :
    (block root).toList.splitOn '\n' = (paths root).map fun p => ("import " ++ p).toList := by
  have hlines : ∀ line ∈ (paths root).map ("import " ++ ·), Text.IsLine line := by
    intro line hline
    obtain ⟨p, hp, rfl⟩ := List.mem_map.mp hline
    obtain ⟨i, -, rfl⟩ := List.mem_map.mp hp
    exact Text.IsLine.append (Text.isLine_ofList (by decide)) (isLine_path i)
  rw [block, Text.splitOn_intercalate_lines hlines (by simp [paths_ne_nil]), List.map_map]
  rfl

/-- The paths of a layout are those of every file and those of the elements that become a call,
whatever the order of children. The block is one line for each path, in strictly increasing
order. -/
theorem paths_union (root : Element) :
    (∀ p, p ∈ paths root ↔
      p ∈ always.map path ∨ ∃ d, root.Visits d ∧ p ∈ (ofElement d).map path) ∧
    (∀ other, root.Rearranged other →
      paths other = paths root ∧ needsOptIn other = needsOptIn root ∧ block other = block root) ∧
    (block root).toList.splitOn '\n' = ((paths root).map fun p => ("import " ++ p).toList) ∧
    (paths root).Pairwise fun p q => Text.bytes p < Text.bytes q := by
  refine ⟨fun p => mem_paths_iff, ?_, splitOn_block root, pairwise_paths root⟩
  intro other hother
  have hlayout := ofLayout_of_rearranged hother
  have hpaths : paths other = paths root := by rw [paths, paths, hlayout]
  refine ⟨hpaths, ?_, ?_⟩
  · rw [needsOptIn, needsOptIn, hlayout]
  · rw [block, block, hpaths]

def mergeFirst : Element :=
  ⟨"LinearLayout", [], [
    ⟨"merge", [], [⟨"Button", [], []⟩, ⟨"SeekBar", [], []⟩]⟩,
    ⟨"include", [], [⟨"Spinner", [], []⟩]⟩]⟩

def includeFirst : Element :=
  ⟨"LinearLayout", [], [
    ⟨"include", [], [⟨"Spinner", [], []⟩]⟩,
    ⟨"merge", [], [⟨"SeekBar", [], []⟩, ⟨"Button", [], []⟩]⟩]⟩

theorem mergeFirst_rearranged : mergeFirst.Rearranged includeFirst :=
  .trans (@Element.Rearranged.child _ _ [] _ _ _ (.perm (.swap _ _ _))) (.perm (.swap _ _ _))

theorem paths_union_mergeFirst :
    mergeFirst.Rearranged includeFirst ∧ paths includeFirst = paths mergeFirst ∧
      block includeFirst = block mergeFirst ∧ slider.path ∈ paths includeFirst := by
  obtain ⟨hunion, horder, -⟩ := paths_union mergeFirst
  obtain ⟨hpaths, -, hblock⟩ := horder includeFirst mergeFirst_rearranged
  refine ⟨mergeFirst_rearranged, hpaths, hblock, ?_⟩
  have hslider : mergeFirst.Visits ⟨"SeekBar", [], []⟩ :=
    .child rfl List.mem_cons_self
      (.child rfl (List.mem_cons_of_mem _ List.mem_cons_self) (.root rfl))
  rw [hpaths]
  exact (hunion _).mpr (.inr ⟨_, hslider, List.mem_cons_self⟩)

end Import

end LayoutCompose
