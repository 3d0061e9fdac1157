import LayoutCompose.Proofs.CodeText
import LayoutCompose.Value.Dimension
import Mathlib.Algebra.Group.Nat.Defs
import Mathlib.Data.List.TakeWhile

/-!
# The integer at the beginning of a text

A text is read for the digits that follow its blank characters and one optional sign, up to the
first other character. There is an integer exactly if there is a digit and the digits fit into 63
bits. The sign then does not lead out of 64 bits, and every integer of that size is read back from
its decimals.
-/

namespace LayoutCompose

/-- A run of elements ends where the first other one stands. -/
theorem Text.span_append {p : α → Bool} {l m : List α} (hl : ∀ a ∈ l, p a = true)
    (hm : ∀ a ∈ m.head?, p a = false) :
    (l ++ m).takeWhile p = l ∧ (l ++ m).dropWhile p = m := by
  rw [List.takeWhile_append_of_pos hl, List.dropWhile_append_of_pos hl]
  cases m with
  | nil => simp
  | cons a m => simp [hm a rfl]

namespace Number

-- ---------------------------------------------------------------------------
-- Signs and digits
-- ---------------------------------------------------------------------------

def Sign.mark : Sign → Char
  | .plus => '+'
  | .minus => '-'

theorem exists_mark_append (l : List Char) :
    ∃ sign : Option Sign, l = (sign.map Sign.mark).toList ++ (takeSign l).2 := by
  unfold takeSign
  split
  case h_1 => exact ⟨some .minus, rfl⟩
  case h_2 => exact ⟨some .plus, rfl⟩
  case h_3 => exact ⟨none, rfl⟩

theorem takeSign_mark (sign : Option Sign) (h : ∀ c ∈ l.head?, c.isDigit = true) :
    takeSign ((sign.map Sign.mark).toList ++ l) = (sign.getD .plus, l) := by
  cases sign with
  | some sign => cases sign <;> rfl
  | none =>
    change takeSign l = (.plus, l)
    unfold takeSign
    split
    case h_1 => exact absurd (h '-' rfl) (by decide)
    case h_2 => exact absurd (h '+' rfl) (by decide)
    case h_3 => rfl

theorem decimalValue_eq (h : ∀ c ∈ digits, c.isDigit = true) :
    decimalValue digits = Nat.ofDigitChars 10 digits 0 := by
  have hvalues : digits.map digitValue = digits.map fun c => c.toNat - '0'.toNat :=
    List.map_congr_left fun c hc => if_pos (h c hc)
  rw [decimalValue, hvalues, ofDigits, List.foldl_map, Nat.ofDigitChars_eq_foldl]

/-- The sign times the digits, both in 64 bits. -/
def Sign.times (sign : Sign) (m : Nat) : Int64 := Int64.ofInt (sign.apply 1) * Int64.ofNat m

theorem Sign.toInt_times (sign : Sign) (h : m ≤ maxInteger) :
    (sign.times m).toInt = sign.apply m := by
  have hproduct : sign.apply 1 * m = sign.apply m := by cases sign <;> simp [apply]
  have hbounds : -2 ^ 63 ≤ sign.apply m ∧ sign.apply m < 2 ^ 63 := by
    have hmax : maxInteger < 2 ^ 63 := by decide
    cases sign <;> simp only [apply] <;> omega
  rw [times, ← Int64.ofInt_eq_ofNat, ← Int64.ofInt_mul, hproduct,
    Int64.toInt_ofInt_of_le hbounds.1 hbounds.2]

-- ---------------------------------------------------------------------------
-- Texts
-- ---------------------------------------------------------------------------

structure Leads (text blanks : List Char) (sign : Option Sign) (digits rest : List Char) :
    Prop where
  parts : text = blanks ++ (sign.map Sign.mark).toList ++ digits ++ rest
  blank : ∀ c ∈ blanks, Text.isBlank c = true
  nonempty : digits ≠ []
  digit : ∀ c ∈ digits, c.isDigit = true
  ends : ∀ c ∈ rest.head?, c.isDigit = false

theorem not_isBlank_of_isDigit {c : Char} (h : c.isDigit = true) : Text.isBlank c = false := by
  obtain ⟨hlow, hhigh⟩ := Char.isDigit_iff_toNat.mp h
  have hzero : '0'.toNat = 0x30 := rfl
  have hnine : '9'.toNat = 0x39 := rfl
  simp only [Text.isBlank, Bool.or_eq_false_iff, Bool.and_eq_false_iff, decide_eq_false_iff_not,
    beq_eq_false_iff_ne]
  omega

/-- A scan passes the blank characters and the sign and stops at the digits. -/
theorem Leads.scan (h : Leads text blanks sign digits rest) :
    takeSign (text.dropWhile Text.isBlank) = (sign.getD .plus, digits ++ rest) := by
  have hhead : ∀ c ∈ (digits ++ rest).head?, c.isDigit = true := by
    intro c hc
    rw [List.head?_append_of_ne_nil _ h.nonempty] at hc
    exact h.digit c (List.mem_of_head? hc)
  have hstop : ∀ c ∈ ((sign.map Sign.mark).toList ++ (digits ++ rest)).head?,
      Text.isBlank c = false := by
    intro c hc
    rcases sign with _ | (_ | _)
    · exact not_isBlank_of_isDigit (hhead c hc)
    all_goals
      cases hc
      rfl
  rw [h.parts, List.append_assoc, List.append_assoc, (Text.span_append h.blank hstop).2,
    takeSign_mark sign hhead]

theorem Leads.leadingInteger?_eq {v : String} (h : Leads v.toList blanks sign digits rest) :
    leadingInteger? v = if Nat.ofDigitChars 10 digits 0 ≤ maxInteger
      then some ((sign.getD .plus).apply (Nat.ofDigitChars 10 digits 0)) else none := by
  simp only [leadingInteger?, h.scan, (Text.span_append h.digit h.ends).1, decimalValue_eq h.digit]
  by_cases hmax : Nat.ofDigitChars 10 digits 0 ≤ maxInteger
  · simp [h.nonempty, hmax, Nat.not_lt.mpr hmax]
  · simp [hmax, Nat.lt_of_not_le hmax]

/-- A text that begins with an integer is no reference. -/
theorem Leads.after?_eq_none {v : String} (h : Leads v.toList blanks sign digits rest) :
    Text.after? "@dimen/" v = none := by
  refine Option.eq_none_iff_forall_ne_some.mpr fun name hname => ?_
  have hscan := h.scan
  rw [Text.after?_eq_some_iff.mp hname, String.toList_append] at hscan
  obtain ⟨d, ds, rfl⟩ := List.exists_cons_of_ne_nil h.nonempty
  -- The scan of a reference stops at once, since `@` is neither blank nor a sign.
  have hbody : '@' :: ("dimen/".toList ++ name.toList) = d :: (ds ++ rest) :=
    (Prod.ext_iff.mp hscan).2
  rw [List.cons.injEq] at hbody
  exact absurd (h.digit d List.mem_cons_self) (hbody.1 ▸ by decide)

theorem exists_leads {v : String} (h : leadingInteger? v = some k) :
    ∃ blanks sign digits rest, Leads v.toList blanks sign digits rest := by
  obtain ⟨sign, hsign⟩ := exists_mark_append (v.toList.dropWhile Text.isBlank)
  simp only [leadingInteger?] at h
  generalize (takeSign (v.toList.dropWhile Text.isBlank)).2 = body at h hsign
  refine ⟨v.toList.takeWhile Text.isBlank, sign, body.takeWhile Char.isDigit,
    body.dropWhile Char.isDigit, ?_, ?_, ?_, ?_, ?_⟩
  · rw [List.append_assoc, List.append_assoc, List.takeWhile_append_dropWhile, ← hsign,
      List.takeWhile_append_dropWhile]
  · exact fun c hc => List.mem_takeWhile_imp hc
  · intro hnil
    simp [hnil] at h
  · exact fun c hc => List.mem_takeWhile_imp hc
  · intro c hc
    have hstop := List.head?_dropWhile_not Char.isDigit body
    rw [hc] at hstop
    exact hstop

theorem leadingInteger?_eq_some_iff {v : String} :
    leadingInteger? v = some k ↔ ∃ blanks sign digits rest,
      Leads v.toList blanks sign digits rest ∧ Nat.ofDigitChars 10 digits 0 ≤ maxInteger ∧
        k = (sign.getD .plus).apply (Nat.ofDigitChars 10 digits 0) := by
  constructor
  · intro h
    obtain ⟨blanks, sign, digits, rest, hleads⟩ := exists_leads h
    rw [hleads.leadingInteger?_eq] at h
    split at h
    case isTrue hmax =>
      cases h
      exact ⟨blanks, sign, digits, rest, hleads, hmax, rfl⟩
    case isFalse => cases h
  · rintro ⟨blanks, sign, digits, rest, hleads, hmax, rfl⟩
    rw [hleads.leadingInteger?_eq, if_pos hmax]

-- ---------------------------------------------------------------------------
-- Decimals
-- ---------------------------------------------------------------------------

theorem leads_toString (n : Int) {suffix : String}
    (h : ∀ c ∈ suffix.toList.head?, c.isDigit = false) :
    ∃ sign, Leads (toString n ++ suffix).toList [] sign (toString n.natAbs).toList suffix.toList ∧
      (sign.getD .plus).apply n.natAbs = n := by
  have hnil : (toString n.natAbs).toList ≠ [] := by
    rw [Nat.toString_eq_repr, Nat.toList_repr]
    exact Nat.toDigits_ne_nil
  cases n with
  | ofNat m =>
    refine ⟨none, ⟨?_, List.forall_mem_nil _, hnil, fun c => isDigit_of_mem_nat, h⟩, rfl⟩
    rw [String.toList_append]
    rfl
  | negSucc m =>
    refine ⟨some .minus, ⟨?_, List.forall_mem_nil _, hnil, fun c => isDigit_of_mem_nat, h⟩, rfl⟩
    have htext : toString (Int.negSucc m) = "-" ++ toString m.succ := rfl
    rw [htext, String.toList_append, String.toList_append]
    rfl

/-- An integer is read back from its decimals, whatever unit follows them. -/
theorem leadingInteger?_toString {n : Int} (hn : n.natAbs ≤ maxInteger) {suffix : String}
    (h : ∀ c ∈ suffix.toList.head?, c.isDigit = false) :
    leadingInteger? (toString n ++ suffix) = some n := by
  obtain ⟨sign, hleads, hsign⟩ := leads_toString n h
  have hvalue : Nat.ofDigitChars 10 (toString n.natAbs).toList 0 = n.natAbs := by
    rw [Nat.toString_eq_repr, Nat.toList_repr, Nat.ofDigitChars_ten_toDigits]
  refine leadingInteger?_eq_some_iff.mpr ⟨_, sign, _, _, hleads, ?_, ?_⟩
  · rwa [hvalue]
  · rw [hvalue, hsign]

/-- The integer of a text is that of its leading digits, if these fit, and the product with the sign
is exact in 64 bits. All integers of 64 bits but the least are read back from their decimals, and as
dimensions. -/
theorem leadingInteger?_exact (v : String) (n : Int) (suffix : String) :
    (∀ k, leadingInteger? v = some k ↔ ∃ blanks sign digits rest,
      Leads v.toList blanks sign digits rest ∧ Nat.ofDigitChars 10 digits 0 ≤ 2 ^ 63 - 1 ∧
        k = (sign.getD .plus).apply (Nat.ofDigitChars 10 digits 0)) ∧
    (∀ k blanks sign digits rest, leadingInteger? v = some k →
      Leads v.toList blanks sign digits rest →
        ((sign.getD .plus).times (Nat.ofDigitChars 10 digits 0)).toInt = k) ∧
    (n.natAbs ≤ 2 ^ 63 - 1 → (∀ c ∈ suffix.toList.head?, c.isDigit = false) →
      leadingInteger? (toString n ++ suffix) = some n ∧
      (Dimension.read? (toString n ++ suffix)).map Dimension.code =
        some (toString n ++ ".dp")) := by
  refine ⟨fun k => leadingInteger?_eq_some_iff, ?_, ?_⟩
  · intro k blanks sign digits rest hread hleads
    rw [hleads.leadingInteger?_eq] at hread
    split at hread
    case isTrue hmax =>
      cases hread
      exact Sign.toInt_times _ hmax
    case isFalse => cases hread
  · intro hn hsuffix
    have hread := leadingInteger?_toString hn hsuffix
    obtain ⟨sign, hleads, -⟩ := leads_toString n hsuffix
    refine ⟨hread, ?_⟩
    rw [Dimension.read?, hleads.after?_eq_none]
    simp only [hread]
    rfl

theorem leadingInteger?_widest :
    Leads "\u00a0-09px".toList ['\u00a0'] (some .minus) ['0', '9'] ['p', 'x'] ∧
      leadingInteger? "\u00a0-09px" = some (-9) ∧ (Sign.minus.times 9).toInt = -9 ∧
      leadingInteger? (toString (-9223372036854775807 : Int) ++ "dp") =
        some (-9223372036854775807) ∧
      (Dimension.read? (toString (-9223372036854775807 : Int) ++ "dp")).map Dimension.code =
        some (toString (-9223372036854775807 : Int) ++ ".dp") := by
  obtain ⟨hread, htimes, hdecimals⟩ :=
    leadingInteger?_exact "\u00a0-09px" (-9223372036854775807) "dp"
  have hleads : Leads "\u00a0-09px".toList ['\u00a0'] (some .minus) ['0', '9'] ['p', 'x'] := by
    refine ⟨rfl, by decide, by decide, by decide, fun c hc => ?_⟩
    cases hc
    rfl
  have hnine := (hread (-9)).mpr ⟨_, _, _, _, hleads, by decide, rfl⟩
  have hproduct := htimes _ _ _ _ _ hnine hleads
  rw [show Nat.ofDigitChars 10 ['0', '9'] 0 = 9 from rfl, Option.getD_some] at hproduct
  refine ⟨hleads, hnine, hproduct, hdecimals (by decide) fun c hc => ?_⟩
  cases hc
  rfl

end Number

end LayoutCompose
