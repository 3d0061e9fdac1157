import LayoutCompose.Code.Name
import Mathlib.Data.List.Basic

/-!
# Package names

A package name is accepted exactly if it has two or more parts between single dots and each of them
is a lower-case letter with lower-case letters, digits and underscores after it. If a name with two
parts is rejected, the message is about the leftmost part that breaks a rule: its number if it is
empty, else its text, with the leftmost character that may not stand there.
-/

namespace LayoutCompose.Name

-- ---------------------------------------------------------------------------
-- Parts
-- ---------------------------------------------------------------------------

def IsLowerLetter (c : Char) : Prop := 'a' ≤ c ∧ c ≤ 'z'

def IsPartChar (c : Char) : Prop := IsLowerLetter c ∨ ('0' ≤ c ∧ c ≤ '9') ∨ c = '_'

inductive IsPart : List Char → Prop
  | mk (hfirst : IsLowerLetter c) (hrest : ∀ d ∈ rest, IsPartChar d) : IsPart (c :: rest)

def IsPackage (package : String) : Prop :=
  ∃ parts, package.toList = ['.'].intercalate parts ∧ 2 ≤ parts.length ∧ ∀ p ∈ parts, IsPart p

/-- What is said about a part that breaks a rule, given its number among the parts. -/
inductive Complaint (number : Nat) : List Char → String → Prop
  | empty : Complaint number [] ("Part " ++ toString number ++ " is empty")
  | start (h : ¬ IsLowerLetter c) : Complaint number (c :: rest)
      ("Part '" ++ String.ofList (c :: rest) ++ "' must start with a lowercase letter")
  | character (hfirst : IsLowerLetter c) (hbefore : ∀ d ∈ before, IsPartChar d)
      (h : ¬ IsPartChar d) :
      Complaint number (c :: (before ++ d :: after))
        ("Part '" ++ String.ofList (c :: (before ++ d :: after)) ++
          "' contains invalid character '" ++ String.ofList [d] ++ "'")

/-- The leftmost element that breaks a rule. -/
theorem exists_first_not {P : α → Prop} {l : List α} (h : ¬ ∀ a ∈ l, P a) :
    ∃ before a after, l = before ++ a :: after ∧ (∀ b ∈ before, P b) ∧ ¬ P a := by
  induction l with
  | nil => exact absurd (List.forall_mem_nil P) h
  | cons a l ih =>
    by_cases ha : P a
    · obtain ⟨before, b, after, rfl, hbefore, hb⟩ :=
        ih fun hl => h (List.forall_mem_cons.mpr ⟨ha, hl⟩)
      exact ⟨a :: before, b, after, rfl, List.forall_mem_cons.mpr ⟨ha, hbefore⟩, hb⟩
    · exact ⟨[], a, l, rfl, List.forall_mem_nil P, ha⟩

theorem isLower_iff {c : Char} : c.isLower = true ↔ IsLowerLetter c :=
  Bool.and_eq_true_iff.trans (and_congr decide_eq_true_iff decide_eq_true_iff)

theorem isPartCharacter_iff : isPartCharacter c = true ↔ IsPartChar c := by
  have hdigit : c.isDigit = true ↔ '0' ≤ c ∧ c ≤ '9' :=
    Bool.and_eq_true_iff.trans (and_congr decide_eq_true_iff decide_eq_true_iff)
  simp only [isPartCharacter, Bool.or_eq_true, isLower_iff, hdigit, beq_iff_eq, IsPartChar,
    or_assoc]

theorem IsPart.dot_not_mem (h : IsPart p) : '.' ∉ p := by
  have hdot : ¬ IsPartChar '.' := by
    rw [← isPartCharacter_iff]
    decide
  cases h with
  | mk hfirst hrest =>
    rintro (_ | ⟨_, hmem⟩)
    · exact hdot (.inl hfirst)
    · exact hdot (hrest '.' hmem)

theorem Complaint.not_isPart (h : Complaint number p complaint) : ¬ IsPart p := by
  rintro ⟨hfirst, hrest⟩
  cases h with
  | start h => exact h hfirst
  | character _ _ h => exact h (hrest _ (by simp))

theorem exists_complaint (number : Nat) (h : ¬ IsPart p) :
    ∃ complaint, Complaint number p complaint := by
  cases p with
  | nil => exact ⟨_, .empty⟩
  | cons c rest =>
    by_cases hfirst : IsLowerLetter c
    · obtain ⟨before, d, after, rfl, hbefore, hd⟩ :=
        exists_first_not fun hrest => h (.mk hfirst hrest)
      exact ⟨_, .character hfirst hbefore hd⟩
    · exact ⟨_, .start hfirst⟩

theorem partFault?_of_isPart (package : String) (number : Nat) (h : IsPart p) :
    partFault? package number (String.ofList p) = none := by
  obtain ⟨hfirst, hrest⟩ := h
  simp only [partFault?, String.toList_ofList, isLower_iff.mpr hfirst, Bool.not_true,
    Bool.false_eq_true, if_false, Option.map_eq_none_iff, List.find?_eq_none, Bool.not_eq_true',
    Bool.not_eq_false, List.forall_mem_cons, isPartCharacter_iff]
  exact ⟨.inl hfirst, hrest⟩

theorem partFault?_of_complaint (package : String) (h : Complaint number p complaint) :
    ∃ fault, partFault? package number (String.ofList p) = some fault ∧
      fault.message = Fault.aboutPackage package ++ complaint := by
  cases h with
  | empty =>
    refine ⟨.emptyPart package number, by simp [partFault?], ?_⟩
    change Fault.aboutPackage package ++ "Part " ++ toString number ++ " is empty" = _
    simp only [String.append_assoc]
  | @start c rest h =>
    refine ⟨.badStart package (String.ofList (c :: rest)), ?_, ?_⟩
    · simp [partFault?, mt isLower_iff.mp h]
    · change Fault.aboutPackage package ++ "Part '" ++ String.ofList (c :: rest) ++
        "' must start with a lowercase letter" = _
      simp only [String.append_assoc]
  | @character c before d after hfirst hbefore h =>
    refine ⟨.badCharacter package (String.ofList (c :: (before ++ d :: after))) d, ?_, ?_⟩
    · have hfind : (c :: (before ++ d :: after)).find? (!isPartCharacter ·) = some d := by
        refine List.find?_eq_some_iff_append.mpr ⟨?_, c :: before, after, rfl, ?_⟩
        · simp [mt isPartCharacter_iff.mp h]
        · simp only [Bool.not_not, List.forall_mem_cons, isPartCharacter_iff]
          exact ⟨.inl hfirst, hbefore⟩
      simp [partFault?, isLower_iff.mpr hfirst, hfind]
    · change Fault.aboutPackage package ++ "Part '" ++
        String.ofList (c :: (before ++ d :: after)) ++
        "' contains invalid character '" ++ String.ofList [d] ++ "'" = _
      simp only [String.append_assoc]

-- ---------------------------------------------------------------------------
-- Names
-- ---------------------------------------------------------------------------

/-- Parts that follow the rules are passed over and counted. -/
theorem firstFault?_append {before : List (List Char)} (package : String)
    (h : ∀ p ∈ before, IsPart p) (number : Nat) (rest : List String) :
    firstFault? package number (before.map String.ofList ++ rest) =
      firstFault? package (number + before.length) rest := by
  induction before generalizing number with
  | nil => rfl
  | cons p before ih =>
    obtain ⟨hp, hbefore⟩ := List.forall_mem_cons.mp h
    rw [List.map_cons, List.cons_append, firstFault?, partFault?_of_isPart package number hp,
      Option.none_or, ih hbefore, List.length_cons, Nat.add_assoc, Nat.add_comm 1]

theorem checkPackage_of_isPart {package : String} (hparts : package.toList.splitOn '.' = parts)
    (hcount : 2 ≤ parts.length) (h : ∀ p ∈ parts, IsPart p) : checkPackage package = .ok () := by
  have hfault := firstFault?_append package h 1 []
  rw [List.append_nil] at hfault
  simp [checkPackage, Text.pieces, hparts, Nat.not_lt.mpr hcount, hfault, firstFault?]

theorem checkPackage_of_complaint {package : String}
    (hparts : package.toList.splitOn '.' = before ++ part :: after)
    (hcount : 2 ≤ (before ++ part :: after).length) (hbefore : ∀ p ∈ before, IsPart p)
    (h : Complaint (before.length + 1) part complaint) :
    ∃ fault, checkPackage package = .error fault ∧
      fault.message = Fault.aboutPackage package ++ complaint := by
  rw [Nat.add_comm] at h
  obtain ⟨fault, hfault, hmessage⟩ := partFault?_of_complaint package h
  have hfirst : firstFault? package 1 ((before ++ part :: after).map String.ofList) =
      some fault := by
    rw [List.map_append, firstFault?_append package hbefore, List.map_cons, firstFault?, hfault,
      Option.some_or]
  refine ⟨fault, ?_, hmessage⟩
  simp only [checkPackage, Text.pieces, hparts, hfirst, List.length_map]
  rw [if_neg (Nat.not_lt.mpr hcount)]

/-- Either all parts follow the rules or the leftmost that does not is complained about. -/
theorem checkPackage_cases {package : String} (hparts : package.toList.splitOn '.' = parts)
    (hcount : 2 ≤ parts.length) :
    (checkPackage package = .ok () ∧ ∀ p ∈ parts, IsPart p) ∨
      ∃ fault before part after complaint, checkPackage package = .error fault ∧
        fault.message = Fault.aboutPackage package ++ complaint ∧
        parts = before ++ part :: after ∧ (∀ p ∈ before, IsPart p) ∧
        Complaint (before.length + 1) part complaint := by
  by_cases h : ∀ p ∈ parts, IsPart p
  · exact .inl ⟨checkPackage_of_isPart hparts hcount h, h⟩
  · obtain ⟨before, part, after, rfl, hbefore, hpart⟩ := exists_first_not h
    obtain ⟨complaint, hcomplaint⟩ := exists_complaint (before.length + 1) hpart
    obtain ⟨fault, hfault, hmessage⟩ :=
      checkPackage_of_complaint hparts hcount hbefore hcomplaint
    exact .inr ⟨fault, before, part, after, complaint, hfault, hmessage, rfl, hbefore, hcomplaint⟩

theorem splitOn_dots {package : String} (hpackage : package.toList = ['.'].intercalate parts)
    (hcount : 2 ≤ parts.length) (hfree : ∀ p ∈ parts, '.' ∉ p) :
    package.toList.splitOn '.' = parts := by
  rw [hpackage]
  exact List.splitOn_intercalate '.' hfree (List.ne_nil_of_length_pos (by omega))

theorem isPackage_iff {package : String} :
    IsPackage package ↔ 2 ≤ (package.toList.splitOn '.').length ∧
      ∀ p ∈ package.toList.splitOn '.', IsPart p := by
  constructor
  · rintro ⟨parts, hpackage, hcount, hparts⟩
    rw [splitOn_dots hpackage hcount fun p hp => (hparts p hp).dot_not_mem]
    exact ⟨hcount, hparts⟩
  · rintro ⟨hcount, hparts⟩
    exact ⟨_, (List.intercalate_splitOn '.').symm, hcount, hparts⟩

theorem checkPackage_eq_ok_iff {package : String} :
    checkPackage package = .ok () ↔ IsPackage package := by
  rw [isPackage_iff]
  by_cases hcount : 2 ≤ (package.toList.splitOn '.').length
  · rcases checkPackage_cases rfl hcount with ⟨hok, hparts⟩ |
      ⟨fault, before, part, after, complaint, hfault, -, hsplit, -, hcomplaint⟩
    · exact ⟨fun _ => ⟨hcount, hparts⟩, fun _ => hok⟩
    · have hpart : part ∈ package.toList.splitOn '.' := by simp [hsplit]
      simp only [hfault, reduceCtorEq, false_iff, not_and]
      exact fun _ hparts => hcomplaint.not_isPart (hparts part hpart)
  · have hfew : checkPackage package = .error (.fewParts package) := by
      simp only [checkPackage, Text.pieces, List.length_map]
      rw [if_pos (Nat.lt_of_not_le hcount)]
    simp [hfew, hcount]

/-- A name is accepted exactly if it follows the grammar. If it has two or more parts and is
rejected, the message is about the leftmost part that breaks a rule. -/
theorem checkPackage_exact (package : String) :
    (checkPackage package = .ok () ↔ IsPackage package) ∧
    ∀ parts, package.toList = ['.'].intercalate parts → 2 ≤ parts.length →
      (∀ p ∈ parts, '.' ∉ p) → ∀ message,
      ((∃ fault, checkPackage package = .error fault ∧ fault.message = message) ↔
        ∃ before part after complaint, parts = before ++ part :: after ∧
          (∀ p ∈ before, IsPart p) ∧ ¬ IsPart part ∧ Complaint (before.length + 1) part complaint ∧
          message = "Invalid Android package name '" ++ package ++ "'. " ++ complaint) := by
  refine ⟨checkPackage_eq_ok_iff, fun parts hpackage hcount hfree message => ?_⟩
  have hsplit := splitOn_dots hpackage hcount hfree
  constructor
  · rintro ⟨fault, hfault, rfl⟩
    rcases checkPackage_cases hsplit hcount with ⟨hok, -⟩ |
      ⟨fault', before, part, after, complaint, hfault', hmessage, hparts, hbefore, hcomplaint⟩
    · rw [hok] at hfault
      cases hfault
    · rw [hfault'] at hfault
      cases hfault
      exact ⟨before, part, after, complaint, hparts, hbefore, hcomplaint.not_isPart, hcomplaint,
        hmessage⟩
  · rintro ⟨before, part, after, complaint, rfl, hbefore, -, hcomplaint, rfl⟩
    exact checkPackage_of_complaint hsplit hcount hbefore hcomplaint

theorem checkPackage_dashed : ∃ fault, checkPackage "com.my-App..x" = .error fault ∧
    fault.message = "Invalid Android package name 'com.my-App..x'. " ++
      "Part 'my-App' contains invalid character '-'" := by
  have hchars : ∀ l : List Char, l.all isPartCharacter = true → ∀ d ∈ l, IsPartChar d :=
    fun l hl d hd => isPartCharacter_iff.mp (List.all_eq_true.mp hl d hd)
  have hdash : ¬ IsPartChar '-' := mt isPartCharacter_iff.mpr (by decide)
  have hcom : IsPart ['c', 'o', 'm'] := .mk (isLower_iff.mp rfl) (hchars _ rfl)
  have hcomplaint : Complaint 2 ['m', 'y', '-', 'A', 'p', 'p']
      "Part 'my-App' contains invalid character '-'" := by
    exact .character (isLower_iff.mp rfl) (hchars ['y'] rfl) hdash
  refine ((checkPackage_exact "com.my-App..x").2
    [['c', 'o', 'm'], ['m', 'y', '-', 'A', 'p', 'p'], [], ['x']] (by decide) (by decide)
    (by decide) _).mpr ⟨[['c', 'o', 'm']], _, _, _, rfl, ?_, hcomplaint.not_isPart, hcomplaint, ?_⟩
  · exact List.forall_mem_singleton.mpr hcom
  · rfl

end LayoutCompose.Name
