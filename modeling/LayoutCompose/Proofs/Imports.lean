import LayoutCompose.Code.Import
import LayoutCompose.Proofs.Tree
import Mathlib.Data.List.Nodup

/-!
# Which elements an import comes from

The imports of a layout are the ones of every file and those that an element asks for
which becomes a call. Their paths differ, as they increase from one import to the next.
-/

namespace LayoutCompose

def Text.bytes (s : String) : List UInt8 := s.toUTF8.data.toList

def Element.call (e : Element) : Call := Call.ofWidget (Widget.ofTag e.tag) e.properties

namespace Import

def name (i : Import) : String := Tag.shortName i.path

theorem shortName_ofList (l : List Char) :
    Tag.shortName (String.ofList l) = String.ofList ((l.splitOn '.').getLastD l) := by
  rw [Tag.shortName, Text.pieces, String.toList_ofList]
  cases h : (l.splitOn '.').getLast? <;>
    simp [List.getLastD_eq_getLast?, List.getLast?_map, h]

theorem mem_given {condition : Bool} {imports : List Import} :
    i ∈ given condition imports ↔ condition = true ∧ i ∈ imports := by
  cases condition <;> simp [given]

theorem mem_ofColor (h : i ∈ ofColor meaning) : i = color ∨ i = materialTheme := by
  unfold ofColor at h
  split at h <;> simp_all

theorem mem_ofResources {ps : Properties} (h : i ∈ ofResources ps) :
    ∃ family, i = ofResource family := by
  obtain ⟨p, -, hp⟩ := List.mem_filterMap.mp h
  split at hp <;> cases hp
  exact ⟨_, rfl⟩

-- ---------------------------------------------------------------------------
-- Walking the tree
-- ---------------------------------------------------------------------------

theorem mem_gather (pending : List Element) (found : List Import) :
    i ∈ gather pending found ↔
      i ∈ found ∨ ∃ e ∈ pending, ∃ d, e.Visits d ∧ i ∈ ofElement d := by
  fun_induction gather pending found with
  | case1 found => simp
  | case2 e pending found h ih | case3 e pending found h ih =>
    have hnone : ∀ d, ¬ e.Visits d := fun d => e.not_visits_of_isOpaque (by rw [h]; rfl)
    simp [ih, hnone]
  | case4 e pending found h ih =>
    have hvisits : ∀ d, e.Visits d ↔ ∃ c ∈ e.children, c.Visits d := by
      intro d
      rw [e.visits_iff (by rw [h]; rfl), h]
      simp [Widget.isCall]
    rw [ih]
    simp only [List.mem_append, List.mem_cons, or_and_right, exists_or, exists_eq_left, hvisits]
    grind
  | case5 e pending found h₁ h₂ h₃ ih =>
    have hopaque : (Widget.ofTag e.tag).isOpaque = false := by
      cases hw : Widget.ofTag e.tag <;> simp_all [Widget.isOpaque]
    have hcall : (Widget.ofTag e.tag).isCall = true := by
      cases hw : Widget.ofTag e.tag <;> simp_all [Widget.isCall]
    have hvisits : ∀ d, e.Visits d ↔ d = e ∨ ∃ c ∈ e.children, c.Visits d := by
      intro d
      simp [e.visits_iff hopaque, hcall]
    rw [ih]
    simp only [List.mem_append, List.mem_cons, or_and_right, exists_or, exists_eq_left, hvisits]
    grind

-- ---------------------------------------------------------------------------
-- The imports of a layout
-- ---------------------------------------------------------------------------

theorem mem_all (i : Import) : i ∈ all := by
  cases i <;> decide

theorem isChain_all : all.IsChain fun i j => Text.bytes i.path < Text.bytes j.path := by
  decide +kernel

theorem pairwise_all : all.Pairwise fun i j => Text.bytes i.path < Text.bytes j.path :=
  List.isChain_iff_pairwise.mp isChain_all

theorem path_injective {i j : Import} (h : i.path = j.path) : i = j := by
  have hnodup : (all.map path).Nodup := by
    rw [List.Nodup, List.pairwise_map]
    refine pairwise_all.imp fun hlt heq => ?_
    rw [heq] at hlt
    exact List.lt_irrefl _ hlt
  exact List.inj_on_of_nodup_map hnodup (mem_all i) (mem_all j) h

theorem mem_ofLayout {root : Element} :
    i ∈ ofLayout root ↔ i ∈ always ∨ ∃ d, root.Visits d ∧ i ∈ ofElement d := by
  simp [ofLayout, mem_all, mem_gather]

theorem ofLayout_eq_of_mem_iff {a b : Element} (h : ∀ i, i ∈ ofLayout a ↔ i ∈ ofLayout b) :
    ofLayout a = ofLayout b := by
  simp only [ofLayout, List.mem_filter, mem_all, true_and] at h ⊢
  exact List.filter_congr fun i _ => Bool.eq_iff_iff.mpr (h i)

theorem path_mem_paths {root : Element} : i.path ∈ paths root ↔ i ∈ ofLayout root := by
  constructor
  · intro h
    obtain ⟨j, hj, heq⟩ := List.mem_map.mp h
    exact path_injective heq ▸ hj
  · exact List.mem_map_of_mem

end Import

end LayoutCompose
