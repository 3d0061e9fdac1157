import LayoutCompose.Proofs.DocumentShape

/-!
# Limits filter documents

Limits never change what is read. Whatever is not turned down for a limit is read in the same
way under higher limits, and a document that is accepted under some limits is judged by its
outline alone under any others: the first element that goes beyond a limit decides.
-/

namespace LayoutCompose

open Markup

namespace Limits

instance instLE : LE Limits where
  le limits limits' := limits.maxDepth ≤ limits'.maxDepth ∧ limits.maxElements ≤ limits'.maxElements

theorem excess?_of_le {limits limits' : Limits} (hle : limits ≤ limits')
    (h : limits.excess? place level = none) : limits'.excess? place level = none := by
  obtain ⟨hplace, hlevel⟩ := excess?_eq_none_iff.mp h
  exact excess?_eq_none_iff.mpr ⟨hplace.trans hle.2, hlevel.trans hle.1⟩

-- ---------------------------------------------------------------------------
-- The first element beyond a limit
-- ---------------------------------------------------------------------------

/-- The limit error of the first element in document order that exceeds a limit. -/
def firstExcess? (limits : Limits) (root : Element) : Option LayoutError :=
  ((root.outline 1).zipIdx 1).findSome? fun ((level, _), place) => limits.excess? place level

def firstExcessFrom? (limits : Limits) (place : Nat) (headings : List Heading) :
    Option LayoutError :=
  (headings.zipIdx place).findSome? fun (heading, place) => limits.excess? place heading.level

theorem firstExcess?_eq (limits : Limits) (root : Element) :
    limits.firstExcess? root = limits.firstExcessFrom? 1 (root.headings 1) := by
  rw [firstExcessFrom?, Element.headings, List.zipIdx_map, List.findSome?_map]
  rfl

@[simp] theorem firstExcessFrom?_nil (limits : Limits) (place : Nat) :
    limits.firstExcessFrom? place [] = none := rfl

theorem firstExcessFrom?_cons (limits : Limits) (place : Nat) (heading : Heading)
    (later : List Heading) :
    limits.firstExcessFrom? place (heading :: later) =
      (limits.excess? place heading.level).or (limits.firstExcessFrom? (place + 1) later) := by
  simp only [firstExcessFrom?, List.zipIdx_cons, List.findSome?_cons]
  cases limits.excess? place heading.level <;> rfl

theorem firstExcessFrom?_eq_none_iff {limits : Limits} (hcount : count ≤ limits.maxElements)
    (headings : List Heading) :
    limits.firstExcessFrom? (count + 1) headings = none ↔
      count + headings.length ≤ limits.maxElements ∧
        ∀ heading ∈ headings, heading.level ≤ limits.maxDepth := by
  induction headings generalizing count with
  | nil => simpa using hcount
  | cons heading later ih =>
    rw [firstExcessFrom?_cons, Option.or_eq_none_iff, excess?_eq_none_iff]
    constructor
    · rintro ⟨⟨hplace, hlevel⟩, hlater⟩
      obtain ⟨hlength, hlevels⟩ := (ih hplace).mp hlater
      refine ⟨by rw [List.length_cons]; omega, ?_⟩
      simpa [hlevel] using hlevels
    · rintro ⟨hlength, hlevels⟩
      rw [List.length_cons] at hlength
      have hplace : count + 1 ≤ limits.maxElements := by omega
      exact ⟨⟨hplace, hlevels heading (by simp)⟩,
        (ih hplace).mpr ⟨by omega, fun h hh => hlevels h (by simp [hh])⟩⟩

theorem firstExcess?_eq_none_iff {limits : Limits} {root : Element} :
    limits.firstExcess? root = none ↔
      root.height ≤ limits.maxDepth ∧ root.size ≤ limits.maxElements := by
  rw [firstExcess?_eq, firstExcessFrom?_eq_none_iff (Nat.zero_le _), Nat.zero_add,
    Element.length_headings, ← root.deepest_headings, Element.deepest_le_iff, and_comm]
  simp

end Limits

-- ---------------------------------------------------------------------------
-- Higher limits
-- ---------------------------------------------------------------------------

def Unlimited (x : Except LayoutError α) : Prop :=
  ∀ n, x ≠ .error (.tooDeep n) ∧ x ≠ .error (.tooLarge n)

theorem Unlimited.of_errors {x : Except LayoutError α} {y : Except LayoutError β} (h : Unlimited y)
    (herrors : ∀ error, x = .error error → y = .error error) : Unlimited x :=
  fun n => ⟨fun hx => (h n).1 (herrors _ hx), fun hx => (h n).2 (herrors _ hx)⟩

theorem Unlimited.of_map {x : Except LayoutError α} (h : Unlimited (x.map f)) : Unlimited x := by
  refine h.of_errors ?_
  rintro error rfl
  rfl

theorem Unlimited.excess?_eq_none {limits : Limits} {x : α}
    (h : Unlimited (acceptUnless (limits.excess? place level) x)) :
    limits.excess? place level = none := by
  cases hexcess : limits.excess? place level with
  | none => rfl
  | some error =>
    rw [hexcess] at h
    rcases Limits.excess?_eq_some hexcess with rfl | rfl
    · exact absurd rfl (h limits.maxElements).2
    · exact absurd rfl (h limits.maxDepth).1

namespace Assembly

theorem makeRoom_of_le {a : Assembly} (hle : limits ≤ limits')
    (h : Unlimited (a.makeRoom limits source offset)) :
    a.makeRoom limits' source offset = a.makeRoom limits source offset := by
  by_cases hroom : a.stack = [] → a.root = none
  · rw [makeRoom_eq hroom] at h ⊢
    rw [makeRoom_eq hroom, h.excess?_eq_none, Limits.excess?_of_le hle h.excess?_eq_none]
  · have hsecond : ∀ limits, a.makeRoom limits source offset =
        .error (.inSource source offset .secondRoot) := by
      intro limits
      rw [makeRoom, if_pos]
      simpa [Option.isSome_iff_ne_none] using hroom
    rw [hsecond, hsecond]

theorem enter_of_le {a : Assembly} (hle : limits ≤ limits')
    (h : Unlimited (a.enter limits source offset content)) :
    a.enter limits' source offset content = a.enter limits source offset content := by
  cases he : elementOf content with
  | error fault => simp only [enter, he]
  | ok e =>
    rw [enter_of_element a he] at h ⊢
    rw [enter_of_element a he, makeRoom_of_le hle h.of_map]

theorem add_of_le {a : Assembly} (hle : limits ≤ limits')
    (h : Unlimited (a.add limits source offset event)) :
    a.add limits' source offset event = a.add limits source offset event := by
  cases event with
  | ignored | closing name => rfl
  | opening content =>
    rw [add_opening] at h ⊢
    rw [add_opening, enter_of_le hle h.of_map]
  | childless content =>
    rw [add_childless] at h ⊢
    rw [add_childless, enter_of_le hle h.of_map]

end Assembly

namespace Document

theorem readFrom_of_le (hle : limits ≤ limits') (h : Unlimited (readFrom limits source r a)) :
    readFrom limits' source r a = readFrom limits source r a := by
  fun_induction readFrom limits source r a with
  | case1 r a fault offset hnext => exact readFrom_of_error hnext
  | case2 r a hnext => exact readFrom_of_none hnext
  | case3 r a event r' hnext hlt error hadd =>
    have hsame : a.add limits' source r.offset event = .error error := by
      rw [← hadd]
      refine Assembly.add_of_le hle (h.of_errors fun error' he => ?_)
      cases hadd.symm.trans he
      rfl
    rw [readFrom_of_some hnext, hsame]
    rfl
  | case4 r a event r' hnext hlt a' hadd ih =>
    have hsame : a.add limits' source r.offset event = .ok a' := by
      rw [← hadd]
      exact Assembly.add_of_le hle (by simp [hadd, Unlimited])
    rw [readFrom_of_some hnext, hsame]
    exact ih h

-- ---------------------------------------------------------------------------
-- Any other limits
-- ---------------------------------------------------------------------------

theorem readFrom_eq_acceptUnless {a : Assembly} (hroot : a.RootLast)
    (h : readFrom limits' source r a = .ok d) :
    ∃ later, d.root.headings 1 = a.headings ++ later ∧
      ∀ limits, readFrom limits source r a =
        acceptUnless (limits.firstExcessFrom? (a.count + 1) later) d := by
  -- along the reading that succeeds; `later` are the start tags it has still to come to
  fun_induction readFrom limits' source r a with
  | case1 => cases h
  | case2 r a hnext =>
    obtain ⟨-, -, hheadings⟩ := Assembly.finish_eq_ok h
    refine ⟨[], by simp [hheadings], fun limits => ?_⟩
    rw [readFrom_of_none hnext, h]
    rfl
  | case3 => cases h
  | case4 r a event r' hnext hlt a' hadd ih =>
    obtain ⟨hroot', hstep⟩ := Assembly.add_cases hroot hadd
    obtain ⟨later, hheadings, hlater⟩ := ih hroot' h
    rcases hstep with ⟨hidle, hall⟩ | ⟨heading, htakes, hall⟩
    · refine ⟨later, hidle.headings ▸ hheadings, fun limits => ?_⟩
      rw [readFrom_of_some hnext, hall, ← hidle.count]
      exact hlater limits
    · refine ⟨heading :: later, by simp [hheadings, htakes.headings], fun limits => ?_⟩
      rw [readFrom_of_some hnext, hall, Limits.firstExcessFrom?_cons]
      cases limits.excess? (a.count + 1) heading.level with
      | some error => rfl
      | none => exact htakes.count ▸ hlater limits

theorem read_eq_acceptUnless (h : read limits' source = .ok d) (limits : Limits) :
    read limits source = acceptUnless (limits.firstExcess? d.root) d := by
  obtain ⟨later, hheadings, hall⟩ := readFrom_eq_acceptUnless (fun _ => rfl) h
  obtain rfl : d.root.headings 1 = later := hheadings
  rw [Limits.firstExcess?_eq]
  exact hall limits

/-- Lower limits turn a document down or leave it as it is, and faults stay as they are
under higher ones. -/
theorem read_of_le {limits limits' : Limits} (hle : limits ≤ limits') (source : String) :
    ((∀ n, read limits source ≠ .error (.tooDeep n) ∧ read limits source ≠ .error (.tooLarge n)) →
      read limits' source = read limits source) ∧
    ∀ d, read limits' source = .ok d →
      (d.depth ≤ limits.maxDepth ∧ d.count ≤ limits.maxElements → read limits source = .ok d) ∧
      (¬ (d.depth ≤ limits.maxDepth ∧ d.count ≤ limits.maxElements) →
        ∃ error, limits.firstExcess? d.root = some error ∧ read limits source = .error error) := by
  refine ⟨readFrom_of_le hle, fun d hd => ?_⟩
  have hshape := WellShaped.of_readFrom (.empty limits') hd
  rw [read_eq_acceptUnless hd limits, hshape.depth, hshape.count, ← Limits.firstExcess?_eq_none_iff]
  cases limits.firstExcess? d.root <;> simp

theorem read_beyond_both :
    (⟨1, 2⟩ : Limits) ≤ ⟨3, 4⟩ ∧
      read ⟨3, 4⟩ "<a><b/><c><d/></c></a>" =
        .ok ⟨⟨"a", [], [⟨"b", [], []⟩, ⟨"c", [], [⟨"d", [], []⟩]⟩]⟩, 3, 4⟩ ∧
      read ⟨1, 2⟩ "<a><b/><c><d/></c></a>" = .error (.tooDeep 1) := by
  have hle : (⟨1, 2⟩ : Limits) ≤ ⟨3, 4⟩ := ⟨by decide, by decide⟩
  have h : read ⟨3, 4⟩ "<a><b/><c><d/></c></a>" =
      .ok ⟨⟨"a", [], [⟨"b", [], []⟩, ⟨"c", [], [⟨"d", [], []⟩]⟩]⟩, 3, 4⟩ := by
    with_unfolding_all rfl
  obtain ⟨error, hfirst, hread⟩ := ((read_of_le hle _).2 _ h).2 (by decide)
  cases hfirst
  exact ⟨hle, h, hread⟩

end Document

end LayoutCompose
