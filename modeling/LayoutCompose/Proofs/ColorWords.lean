import LayoutCompose.Proofs.CodeText
import Mathlib.Data.Nat.Digits.Defs

/-!
# The words of colours

A colour literal stands for four channels of eight bits, alpha first. A digit of a short form counts
seventeen times, as the two digits of the long form do, and a form without alpha has all bits of
alpha set. The code of a colour writes the word of the four channels with eight digits. So neither
the case of the digits nor the choice between a short form and its double shows in the code.
-/

namespace LayoutCompose

-- ---------------------------------------------------------------------------
-- Digits
-- ---------------------------------------------------------------------------

/-- What holds of all characters below 128, and of all without an upper case, holds of all. -/
theorem Text.forall_of_ascii {P : Char → Prop} (hascii : ∀ n < 0x80, P (Char.ofNat n))
    (hplain : ∀ c : Char, c.toUpper = c → P c) (c : Char) : P c := by
  by_cases hc : c.toNat < 0x80
  · exact Char.ofNat_toNat c ▸ hascii c.toNat hc
  · refine hplain c (dif_neg fun hlower => hc ?_)
    exact Nat.lt_of_le_of_lt (UInt32.le_iff_toNat_le.mp hlower.2) (by decide)

namespace Number

def hexDigits : List Char :=
  ['0', '1', '2', '3', '4', '5', '6', '7', '8', '9', 'A', 'B', 'C', 'D', 'E', 'F']

def hexValue (c : Char) : Nat := hexDigits.idxOf c.toUpper

theorem mem_hexDigits_iff : c ∈ hexDigits ↔ ∃ d, c = hexDigit d := by
  have hdigits : hexDigits = (List.finRange 16).map hexDigit := by decide
  simp [hdigits, eq_comm]

theorem exists_map_hexDigit (h : ∀ c ∈ l, c ∈ hexDigits) : ∃ ds, l = List.map hexDigit ds := by
  induction l with
  | nil => exact ⟨[], rfl⟩
  | cons c l ih =>
    obtain ⟨hc, hl⟩ := List.forall_mem_cons.mp h
    obtain ⟨d, rfl⟩ := mem_hexDigits_iff.mp hc
    obtain ⟨ds, rfl⟩ := ih hl
    exact ⟨d :: ds, rfl⟩

theorem toUpper_hexDigit (d : Fin 16) : (hexDigit d).toUpper = hexDigit d := by
  revert d
  decide

/-- The values of digits are those that their upper case stands for. -/
theorem map_hexValue {digits : List Char} {ds : List (Fin 16)}
    (h : digits.map Char.toUpper = ds.map hexDigit) : digits.map hexValue = ds.map Fin.val := by
  have hindex : ∀ d, hexDigits.idxOf (hexDigit d) = d := by decide
  calc digits.map hexValue = (digits.map Char.toUpper).map hexDigits.idxOf := by
        rw [List.map_map]; rfl
    _ = ds.map Fin.val := by simp [h, hindex]

theorem hexDigit?_toUpper (c : Char) : hexDigit? c.toUpper = hexDigit? c :=
  Text.forall_of_ascii (P := fun c => hexDigit? c.toUpper = hexDigit? c) (by decide)
    (fun _ hupper => congrArg hexDigit? hupper) c

theorem eq_hash_of_toUpper {c : Char} (h : c.toUpper = '#') : c = '#' :=
  Text.forall_of_ascii (P := fun c => c.toUpper = '#' → c = '#') (by decide)
    (fun _ hupper hc => hupper.symm.trans hc) c h

theorem lt_of_hexDigit? (h : hexDigit? c = some d) : c.toNat < 0x80 := by
  unfold hexDigit? at h
  simp only [Bool.and_eq_true, decide_eq_true_eq, Char.le_def, UInt32.le_iff_toNat_le] at h
  split at h
  case isTrue hrange => exact Nat.lt_of_le_of_lt hrange.2 (by decide)
  split at h
  case isTrue hrange => exact Nat.lt_of_le_of_lt hrange.2 (by decide)
  split at h
  case isTrue hrange => exact Nat.lt_of_le_of_lt hrange.2 (by decide)
  case isFalse => cases h

/-- A character is read as the digit that is its upper case. -/
theorem hexDigit?_eq_some_iff : hexDigit? c = some d ↔ c.toUpper = hexDigit d := by
  have hascii : ∀ n < 0x80,
      (hexDigit? (Char.ofNat n)).all (hexDigit · == (Char.ofNat n).toUpper) = true := by decide
  constructor
  · intro hread
    have hsame := hascii c.toNat (lt_of_hexDigit? hread)
    rw [Char.ofNat_toNat, hread] at hsame
    exact (beq_iff_eq.mp hsame).symm
  · intro hupper
    rw [← hexDigit?_toUpper, hupper, hexDigit?_hexDigit]

theorem mapM_hexDigit?_eq_some_iff {digits : List Char} {ds : List (Fin 16)} :
    digits.mapM hexDigit? = some ds ↔ digits.map Char.toUpper = ds.map hexDigit := by
  induction digits generalizing ds with
  | nil => cases ds <;> simp
  | cons c digits ih => cases ds <;> simp [Option.bind_eq_some_iff, hexDigit?_eq_some_iff, ih]

theorem ofDigits_eq (base : Nat) (digits : List Nat) :
    ofDigits base digits = Nat.ofDigits base digits.reverse := by
  rw [Nat.ofDigits_eq_foldr, List.foldr_reverse]
  simp [ofDigits, Nat.add_comm]

/-- Digits of one length with the same value are the same. -/
theorem eq_of_ofDigits_eq {ds es : List (Fin 16)} (hlength : ds.length = es.length)
    (h : ofDigits 16 (ds.map Fin.val) = ofDigits 16 (es.map Fin.val)) : ds = es := by
  have hlt : ∀ ds : List (Fin 16), ∀ k ∈ (ds.map Fin.val).reverse, k < 16 := by simp
  rw [ofDigits_eq, ofDigits_eq] at h
  have hsame := Nat.ofDigits_inj_of_len_eq (by decide) (by simp [hlength]) (hlt ds) (hlt es) h
  exact List.map_injective_iff.mpr (fun _ _ => Fin.eq_of_val_eq) (List.reverse_inj.mp hsame)

end Number

-- ---------------------------------------------------------------------------
-- Words
-- ---------------------------------------------------------------------------

namespace Argb

open Number (hexDigit hexDigit? hexDigits hexValue ofDigits)

structure IsForm (digits : List Char) : Prop where
  length : digits.length ∈ [3, 4, 6, 8]
  digit : ∀ c ∈ digits, c.toUpper ∈ hexDigits

def bytes : List Nat → List Nat
  | high :: low :: rest => (16 * high + low) :: bytes rest
  | _ => []

/-- The channels that a form gives. A short form has one digit for each of them. -/
def channels (digits : List Nat) : List Nat :=
  if digits.length ≤ 4 then digits.map (17 * ·) else bytes digits

/-- The word of the channels alpha, red, green and blue. Alpha is full unless it is given. -/
def word (digits : List Nat) : Nat :=
  let given := channels digits
  ofDigits 256 (if given.length = 3 then 255 :: given else given)

def IsWordCode (n : Nat) (text : String) : Prop :=
  ∃ digits : List Char, text = "Color(0x" ++ String.ofList digits ++ ")" ∧ digits.length = 8 ∧
    (∀ c ∈ digits, c ∈ hexDigits) ∧ ofDigits 16 (digits.map hexValue) = n

def twice (l : List α) : List α := l.flatMap fun a => [a, a]

theorem twice_cons (a : α) (l : List α) : twice (a :: l) = a :: a :: twice l := rfl

theorem isWordCode_iff :
    IsWordCode n text ↔ ∃ ds, text = "Color(0x" ++ String.ofList (List.map hexDigit ds) ++ ")" ∧
      ds.length = 8 ∧ ofDigits 16 (ds.map Fin.val) = n := by
  have hupper : ∀ ds, (List.map hexDigit ds).map Char.toUpper = ds.map hexDigit := by
    simp [Number.toUpper_hexDigit]
  constructor
  · rintro ⟨digits, htext, hlength, hdigits, hvalue⟩
    obtain ⟨ds, rfl⟩ := Number.exists_map_hexDigit hdigits
    rw [Number.map_hexValue (hupper ds)] at hvalue
    exact ⟨ds, htext, by simpa using hlength, hvalue⟩
  · rintro ⟨ds, htext, hlength, hvalue⟩
    refine ⟨ds.map hexDigit, htext, by simpa using hlength, ?_, ?_⟩
    · exact List.forall_mem_map.mpr fun d _ => Number.mem_hexDigits_iff.mpr ⟨d, rfl⟩
    · rw [Number.map_hexValue (hupper ds), hvalue]

theorem eq_of_isWordCode (h : IsWordCode n text) (h' : IsWordCode n text') : text = text' := by
  obtain ⟨ds, rfl, hlength, hvalue⟩ := isWordCode_iff.mp h
  obtain ⟨es, rfl, hlength', hvalue'⟩ := isWordCode_iff.mp h'
  rw [Number.eq_of_ofDigits_eq (hlength.trans hlength'.symm) (hvalue.trans hvalue'.symm)]

def value (c : Argb) : Nat :=
  ofDigits 256 [c.alpha.value, c.red.value, c.green.value, c.blue.value]

theorem isWordCode_code (color : Argb) : IsWordCode color.value color.code := by
  refine isWordCode_iff.mpr ⟨[color.alpha.high, color.alpha.low, color.red.high, color.red.low,
    color.green.high, color.green.low, color.blue.high, color.blue.low], rfl, rfl, ?_⟩
  simp only [ofDigits, List.map_cons, List.map_nil, List.foldl_cons, List.foldl_nil, value,
    Channel.value]
  omega

-- ---------------------------------------------------------------------------
-- Forms
-- ---------------------------------------------------------------------------

theorem isSome_ofDigits? : ∀ ds, (ofDigits? ds).isSome = true ↔ ds.length ∈ [3, 4, 6, 8]
  | [] | [_] | [_, _] | [_, _, _] | [_, _, _, _] | [_, _, _, _, _] | [_, _, _, _, _, _]
  | [_, _, _, _, _, _, _] | [_, _, _, _, _, _, _, _] => by simp [ofDigits?]
  | _ :: _ :: _ :: _ :: _ :: _ :: _ :: _ :: _ :: _ => by simp [ofDigits?]

theorem value_of_ofDigits? (h : ofDigits? ds = some color) :
    color.value = word (ds.map Fin.val) := by
  have hfull : Channel.full.value = 255 := rfl
  unfold ofDigits? at h
  split at h <;> cases h
  all_goals simp [value, word, channels, bytes, Channel.value_double, hfull]
  all_goals rfl

theorem ofDigits?_twice {ds : List (Fin 16)} (h : ds.length ∈ [3, 4]) :
    ofDigits? (twice ds) = ofDigits? ds := by
  match ds, h with
  | [_, _, _], _ | [_, _, _, _], _ => rfl

/-- A literal is read by the digits that the upper case of its characters stands for. -/
theorem read?_eq_some_iff {v : String} :
    read? v = some color ↔ ∃ digits ds, v.toList = '#' :: digits ∧
      digits.map Char.toUpper = ds.map hexDigit ∧ ofDigits? ds = some color := by
  unfold read?
  split
  case h_1 digits hv => simp [hv, Option.bind_eq_some_iff, Number.mapM_hexDigit?_eq_some_iff]
  case h_2 hv => simpa using fun digits hdigits => absurd hdigits (hv digits)

theorem isSome_read?_iff (v : String) :
    (read? v).isSome = true ↔ ∃ digits, v.toList = '#' :: digits ∧ IsForm digits := by
  simp only [Option.isSome_iff_exists, read?_eq_some_iff]
  constructor
  · rintro ⟨color, digits, ds, hv, hdigits, hcolor⟩
    have hlength := congrArg List.length hdigits
    rw [List.length_map, List.length_map] at hlength
    refine ⟨digits, hv, hlength ▸ (isSome_ofDigits? ds).mp (by simp [hcolor]), fun c hc => ?_⟩
    have hupper : c.toUpper ∈ ds.map hexDigit := hdigits ▸ List.mem_map_of_mem hc
    obtain ⟨d, -, hd⟩ := List.mem_map.mp hupper
    exact Number.mem_hexDigits_iff.mpr ⟨d, hd.symm⟩
  · rintro ⟨digits, hv, hform⟩
    obtain ⟨ds, hds⟩ := Number.exists_map_hexDigit (List.forall_mem_map.mpr hform.digit)
    have hlength := congrArg List.length hds
    rw [List.length_map, List.length_map] at hlength
    obtain ⟨color, hcolor⟩ := Option.isSome_iff_exists.mp
      ((isSome_ofDigits? ds).mpr (hlength ▸ hform.length))
    exact ⟨color, digits, ds, hv, hds, hcolor⟩

theorem isWordCode_of_read? {v : String} (h : read? v = some color)
    (hv : v.toList = '#' :: digits) : IsWordCode (word (digits.map hexValue)) color.code := by
  obtain ⟨digits', ds, hv', hdigits, hcolor⟩ := read?_eq_some_iff.mp h
  obtain rfl : digits = digits' := (List.cons.inj (hv.symm.trans hv')).2
  rw [Number.map_hexValue hdigits, ← value_of_ofDigits? hcolor]
  exact isWordCode_code color

theorem read?_eq_of_toUpper {v w : String}
    (h : w.toList.map Char.toUpper = v.toList.map Char.toUpper) : read? w = read? v := by
  have hread : ∀ {v w : String}, w.toList.map Char.toUpper = v.toList.map Char.toUpper →
      ∀ color, read? v = some color → read? w = some color := by
    intro v w h color hv
    obtain ⟨digits, ds, hv, hdigits, hcolor⟩ := read?_eq_some_iff.mp hv
    rw [hv, List.map_cons, hdigits, List.map_eq_cons_iff] at h
    obtain ⟨c, digits', hw, hc, hdigits'⟩ := h
    rw [Number.eq_hash_of_toUpper hc] at hw
    exact read?_eq_some_iff.mpr ⟨digits', ds, hw, hdigits', hcolor⟩
  exact Option.ext fun color => ⟨hread h.symm color, hread h color⟩

theorem mapM_hexDigit?_twice (digits : List Char) :
    (twice digits).mapM hexDigit? = (digits.mapM hexDigit?).map twice := by
  induction digits with
  | nil => rfl
  | cons c digits ih =>
    cases hc : hexDigit? c with
    | none => simp [twice_cons, hc]
    | some d => cases hm : digits.mapM hexDigit? <;> simp [twice_cons, hc, ih, hm]

theorem read?_twice {v w : String} (hv : v.toList = '#' :: digits)
    (hw : w.toList = '#' :: twice digits) (h : digits.length ∈ [3, 4]) : read? w = read? v := by
  simp only [read?, hv, hw, mapM_hexDigit?_twice]
  cases hds : digits.mapM hexDigit? with
  | none => rfl
  | some ds =>
    have hlength := congrArg List.length (Number.mapM_hexDigit?_eq_some_iff.mp hds)
    rw [List.length_map, List.length_map] at hlength
    exact ofDigits?_twice (hlength ▸ h)

/-- A text is a colour exactly in the four forms, and its code writes the word that the form stands
for. Neither the case of the digits nor the choice between a short form and its double matters. -/
theorem code_of_read? (v : String) :
    ((read? v).isSome = true ↔ ∃ digits, v.toList = '#' :: digits ∧ IsForm digits) ∧
    (∀ text, (read? v).map code = some text ↔ ∃ digits, v.toList = '#' :: digits ∧
      IsForm digits ∧ IsWordCode (word (digits.map hexValue)) text) ∧
    (∀ w : String, w.toList.map Char.toUpper = v.toList.map Char.toUpper →
      (read? w).map code = (read? v).map code) ∧
    (∀ digits, v.toList = '#' :: digits → digits.length ∈ [3, 4] →
      (read? (String.ofList ('#' :: twice digits))).map code = (read? v).map code) := by
  refine ⟨isSome_read?_iff v, fun text => ⟨fun h => ?_, ?_⟩, fun w hw => ?_,
    fun digits hv hlength => ?_⟩
  · obtain ⟨color, hcolor, rfl⟩ := Option.map_eq_some_iff.mp h
    obtain ⟨digits, hv, hform⟩ := (isSome_read?_iff v).mp (by simp [hcolor])
    exact ⟨digits, hv, hform, isWordCode_of_read? hcolor hv⟩
  · rintro ⟨digits, hv, hform, htext⟩
    obtain ⟨color, hcolor⟩ := Option.isSome_iff_exists.mp
      ((isSome_read?_iff v).mpr ⟨digits, hv, hform⟩)
    rw [hcolor, eq_of_isWordCode htext (isWordCode_of_read? hcolor hv)]
    rfl
  · rw [read?_eq_of_toUpper hw]
  · rw [read?_twice hv String.toList_ofList hlength]

theorem code_mixedShort :
    IsForm ['8', 'f', '0', 'C'] ∧ (read? "#8f0C").map code = some "Color(0x88FF00CC)" ∧
      IsWordCode (word [8, 15, 0, 12]) "Color(0x88FF00CC)" ∧
      (read? "#8F0c").map code = (read? "#8f0C").map code ∧
      (read? "#88ff00CC").map code = (read? "#8f0C").map code := by
  obtain ⟨-, htext, hcase, htwice⟩ := code_of_read? "#8f0C"
  have hcode : (read? "#8f0C").map code = some "Color(0x88FF00CC)" := rfl
  obtain ⟨digits, hv, hform, hword⟩ := (htext _).mp hcode
  obtain rfl : ['8', 'f', '0', 'C'] = digits := (List.cons.inj hv).2
  have hvalues : ['8', 'f', '0', 'C'].map hexValue = [8, 15, 0, 12] := rfl
  have hdouble : String.ofList ('#' :: twice ['8', 'f', '0', 'C']) = "#88ff00CC" := rfl
  rw [hvalues] at hword
  exact ⟨hform, hcode, hword, hcase "#8F0c" (by decide), hdouble ▸ htwice _ hv (by decide)⟩

end Argb

end LayoutCompose
