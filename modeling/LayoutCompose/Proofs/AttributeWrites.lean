import LayoutCompose.Proofs.DocumentShape
import Mathlib.Data.List.Nodup

/-!
# Attributes after a run of writes

An element is given its attributes one write after the other. A name stays where it was first
written and has the value that was written last, so its place and its value come from
different moments of the run. One write keeps the record of the writes before it, and the
record of a whole run decides what every name is looked up as.
-/

namespace LayoutCompose

namespace Attribute

def IsLast (writes : List Attribute) (a : Attribute) : Prop :=
  ∃ earlier later, writes = earlier ++ a :: later ∧ a.name ∉ later.map (·.name)

/-- The attributes that a run of writes leaves: every name of the run once, in the order of the
first writes, with the value of its last write. -/
structure Records (writes held : List Attribute) : Prop where
  distinct : Distinct held
  mem_iff : ∀ name, name ∈ held.map (·.name) ↔ name ∈ writes.map (·.name)
  ordered : (held.map (·.name)).Pairwise fun first second =>
    (writes.map (·.name)).idxOf first < (writes.map (·.name)).idxOf second
  isLast : ∀ a ∈ held, IsLast writes a

-- ---------------------------------------------------------------------------
-- The last write of a name
-- ---------------------------------------------------------------------------

theorem isLast_iff_find? {writes : List Attribute} {a : Attribute} :
    IsLast writes a ↔ writes.reverse.find? (·.name == a.name) = some a := by
  rw [List.find?_eq_some_iff_append]
  constructor
  · rintro ⟨earlier, later, rfl, hlater⟩
    refine ⟨beq_self_eq_true _, later.reverse, earlier.reverse, by simp, fun b hb => ?_⟩
    have hne : b.name ≠ a.name := fun hname =>
      hlater (hname ▸ List.mem_map_of_mem (List.mem_reverse.mp hb))
    simpa using hne
  · rintro ⟨-, later, earlier, hwrites, hlater⟩
    refine ⟨earlier.reverse, later.reverse, ?_, ?_⟩
    · rw [← List.reverse_reverse writes, hwrites]
      simp
    · intro hmem
      obtain ⟨b, hb, hname⟩ := List.mem_map.mp hmem
      simpa [hname] using hlater b (List.mem_reverse.mp hb)

theorem IsLast.unique {writes : List Attribute} {a b : Attribute} (ha : IsLast writes a)
    (hb : IsLast writes b) (hname : a.name = b.name) : a = b := by
  rw [isLast_iff_find?] at ha hb
  rw [hname, hb] at ha
  exact (Option.some.inj ha).symm

theorem IsLast.concat_self (writes : List Attribute) (a : Attribute) : IsLast (writes ++ [a]) a :=
  ⟨writes, [], rfl, List.not_mem_nil⟩

theorem IsLast.concat {writes : List Attribute} {a b : Attribute} (h : IsLast writes b)
    (hname : b.name ≠ a.name) : IsLast (writes ++ [a]) b := by
  obtain ⟨earlier, later, rfl, hlater⟩ := h
  refine ⟨earlier, later ++ [a], by simp, ?_⟩
  simpa [hname] using hlater

theorem IsLast.mem (h : IsLast writes a) : a ∈ writes := by
  obtain ⟨earlier, later, rfl, -⟩ := h
  simp

-- ---------------------------------------------------------------------------
-- One write
-- ---------------------------------------------------------------------------

/-- What is under another name stays at its place. -/
theorem getElem?_put_iff {name : String} {a : Attribute} (h : a.name ≠ name) (value : String)
    (held : List Attribute) (i : Nat) : (put name value held)[i]? = some a ↔ held[i]? = some a := by
  induction held generalizing i with
  | nil =>
    have hne : (⟨name, value⟩ : Attribute) ≠ a := fun heq => h (heq ▸ rfl)
    cases i <;> simp [put, hne]
  | cons b rest ih =>
    rw [put]
    split
    · rename_i hb
      have hne : (⟨name, value⟩ : Attribute) ≠ a := fun heq => h (heq ▸ rfl)
      have hne' : b ≠ a := fun heq => h (heq ▸ hb)
      cases i <;> simp [hne, hne']
    · cases i with
      | zero => simp
      | succ i => simpa using ih i

/-- Nothing changes for a search that passes over the written name. -/
theorem find?_put {name value : String} {p : Attribute → Bool}
    (h : ∀ a, a.name = name → p a = false) (held : List Attribute) :
    (put name value held).find? p = held.find? p := by
  induction held with
  | nil => simp [put, h ⟨name, value⟩ rfl]
  | cons b rest ih =>
    rw [put]
    split
    · rename_i hb
      rw [List.find?_cons_of_neg (by simp [h ⟨name, value⟩ rfl]),
        List.find?_cons_of_neg (by simp [h b hb])]
    · rw [List.find?_cons, List.find?_cons, ih]

theorem mem_put_self (name value : String) (held : List Attribute) :
    ⟨name, value⟩ ∈ put name value held := by
  induction held with
  | nil => simp [put]
  | cons b rest ih =>
    rw [put]
    split
    · exact List.mem_cons_self
    · exact List.mem_cons_of_mem b ih

theorem Distinct.eq_of_name {held : List Attribute} (h : Distinct held) (ha : a ∈ held)
    (hb : b ∈ held) (hname : a.name = b.name) : a = b :=
  List.inj_on_of_nodup_map h ha hb hname

theorem mem_put {name value : String} {held : List Attribute} (hdistinct : Distinct held)
    (h : a ∈ put name value held) : a = ⟨name, value⟩ ∨ a ∈ held ∧ a.name ≠ name := by
  by_cases hname : a.name = name
  · exact .inl ((hdistinct.put name value).eq_of_name h (mem_put_self name value held) hname)
  · obtain ⟨i, hi⟩ := List.mem_iff_getElem?.mp h
    exact .inr ⟨List.mem_iff_getElem?.mpr ⟨i, (getElem?_put_iff hname value held i).mp hi⟩, hname⟩

theorem Records.put (h : Records writes held) (a : Attribute) :
    Records (writes ++ [a]) (put a.name a.value held) where
  distinct := h.distinct.put a.name a.value
  mem_iff name := by
    rw [names_put, List.map_append, List.mem_append, ← h.mem_iff]
    split
    · rename_i hmem
      simp only [List.map_cons, List.map_nil, List.mem_singleton, iff_self_or]
      exact fun hname => hname ▸ hmem
    · exact List.mem_append
  ordered := by
    rw [names_put, List.map_append, List.map_singleton]
    have hold : (held.map (·.name)).Pairwise fun first second =>
        (writes.map (·.name) ++ [a.name]).idxOf first <
          (writes.map (·.name) ++ [a.name]).idxOf second := by
      refine h.ordered.imp_of_mem fun hfirst hsecond hlt => ?_
      rwa [List.idxOf_append_of_mem ((h.mem_iff _).mp hfirst),
        List.idxOf_append_of_mem ((h.mem_iff _).mp hsecond)]
    split
    · exact hold
    · rename_i hnew
      refine List.pairwise_append.mpr ⟨hold, List.pairwise_singleton _ _, ?_⟩
      intro first hfirst second hsecond
      obtain rfl := List.mem_singleton.mp hsecond
      rw [h.mem_iff] at hfirst hnew
      rw [List.idxOf_append_of_mem hfirst, List.idxOf_append_of_notMem hnew]
      exact Nat.lt_add_right _ (List.idxOf_lt_length_of_mem hfirst)
  isLast b hb := by
    obtain rfl | ⟨hb, hname⟩ := mem_put h.distinct hb
    · exact .concat_self writes a
    · exact (h.isLast b hb).concat hname

-- ---------------------------------------------------------------------------
-- A run of writes
-- ---------------------------------------------------------------------------

theorem Records.nil : Records [] [] where
  distinct := List.nodup_nil
  mem_iff _ := Iff.rfl
  ordered := .nil
  isLast _ h := nomatch h

theorem Records.putAll (h : Records writes held) (more : List Attribute) :
    Records (writes ++ more) (putAll held more) := by
  induction more generalizing writes held with
  | nil => simpa [Attribute.putAll] using h
  | cons a more ih =>
    have hrest := ih (h.put a)
    rw [List.append_assoc] at hrest
    exact hrest

theorem Records.mem_iff_isLast (h : Records writes held) : a ∈ held ↔ IsLast writes a := by
  refine ⟨h.isLast a, fun hlast => ?_⟩
  obtain ⟨b, hb, hname⟩ := List.mem_map.mp ((h.mem_iff a.name).mpr (List.mem_map_of_mem hlast.mem))
  exact (h.isLast b hb).unique hlast hname ▸ hb

end Attribute

-- ---------------------------------------------------------------------------
-- Elements
-- ---------------------------------------------------------------------------

namespace Element

def putAll (e : Element) (writes : List Attribute) : Element :=
  writes.foldl (fun e a => e.put a.name a.value) e

theorem putAll_eq (e : Element) (writes : List Attribute) :
    e.putAll writes = { e with attributes := Attribute.putAll e.attributes writes } := by
  induction writes generalizing e with
  | nil =>
    cases e
    rfl
  | cons a writes ih => exact ih (e.put a.name a.value)

theorem get?_eq_some_iff {e : Element} (h : Attribute.Distinct e.attributes) :
    e.get? name = some value ↔ ⟨name, value⟩ ∈ e.attributes := by
  rw [get?, Option.map_eq_some_iff]
  constructor
  · rintro ⟨a, ha, rfl⟩
    obtain rfl : a.name = name := by simpa using List.find?_some ha
    exact List.mem_of_find?_eq_some ha
  · intro hmem
    cases hfind : e.attributes.find? (·.name == name) with
    | none => simpa using List.find?_eq_none.mp hfind _ hmem
    | some a =>
      have hname : a.name = name := by simpa using List.find?_some hfind
      exact ⟨a, rfl, congrArg (·.value) (h.eq_of_name (List.mem_of_find?_eq_some hfind) hmem hname)⟩

theorem get?_eq_none_iff (e : Element) (name : String) :
    e.get? name = none ↔ name ∉ e.attributes.map (·.name) := by
  rw [get?, Option.map_eq_none_iff, List.find?_eq_none, List.mem_map, not_exists]
  simp

theorem get?_put_of_ne (e : Element) {name other : String} (h : other ≠ name) (value : String) :
    (e.put name value).get? other = e.get? other := by
  rw [get?, get?]
  refine congrArg _ (Attribute.find?_put (fun a ha => ?_) e.attributes)
  simpa [ha] using h.symm

/-- A run of writes on an element without attributes leaves each name once, at the place of its
first write and with the value of its last, and nothing else is changed. A name is looked up as
its last write, and one more write leaves every other name its value and its place. -/
theorem putAll_firstPlace_lastValue (tag : String) (children : List Element)
    (writes : List Attribute) :
    let e := putAll ⟨tag, [], children⟩ writes
    e.tag = tag ∧ e.children = children ∧ Attribute.Records writes e.attributes ∧
    (∀ name value, e.get? name = some value ↔ Attribute.IsLast writes ⟨name, value⟩) ∧
    (∀ name, e.get? name = none ↔ name ∉ writes.map (·.name)) ∧
    ∀ name value other, other ≠ name →
      (e.put name value).get? other = e.get? other ∧
      ∀ (i : Nat) (a : Attribute), a.name = other →
        ((e.put name value).attributes[i]? = some a ↔ e.attributes[i]? = some a) := by
  intro e
  have he : e = ⟨tag, Attribute.putAll [] writes, children⟩ := putAll_eq _ writes
  have hrecords : Attribute.Records writes e.attributes := he ▸ Attribute.Records.nil.putAll writes
  refine ⟨by rw [he], by rw [he], hrecords, fun name value => ?_, fun name => ?_, ?_⟩
  · rw [get?_eq_some_iff hrecords.distinct, hrecords.mem_iff_isLast]
  · rw [get?_eq_none_iff, hrecords.mem_iff]
  · rintro name value other hother
    refine ⟨e.get?_put_of_ne hother value, ?_⟩
    rintro i a rfl
    exact Attribute.getElem?_put_iff hother value e.attributes i

def rewrittenText : List Attribute :=
  [⟨"android:text", "first"⟩, ⟨"android:textSize", "12sp"⟩, ⟨"android:text", "second"⟩]

theorem putAll_rewrittenText :
    let e := putAll ⟨"TextView", [], []⟩ rewrittenText
    e.attributes = [⟨"android:text", "second"⟩, ⟨"android:textSize", "12sp"⟩] ∧
      "android:text" ≠ "android:textSize" ∧
      (e.put "android:textSize" "14sp").get? "android:text" = e.get? "android:text" ∧
      e.get? "android:text" = some "second" := by
  intro e
  have hne : "android:text" ≠ "android:textSize" := by decide
  obtain ⟨-, -, -, hget, -, hother⟩ := putAll_firstPlace_lastValue "TextView" [] rewrittenText
  refine ⟨by decide, hne, (hother "android:textSize" "14sp" "android:text" hne).1, ?_⟩
  exact (hget _ _).mpr ⟨rewrittenText.take 2, [], rfl, List.not_mem_nil⟩

end Element

end LayoutCompose
