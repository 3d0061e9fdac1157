import LayoutCompose.Proofs.BatchConversion
import LayoutCompose.Proofs.CodeText
import LayoutCompose.Proofs.OptionEffects
import LayoutCompose.Proofs.TidyText

/-!
# Names of functions in a batch

A stem gives its function a name of which every character stands in the stem, but for the first
ones of its words, which go to upper case. Separators are left out and nothing else is, so the name
is an identifier exactly if the words are made of letters and digits. The letters are those of ASCII
and, at the beginning of a word, the few others whose upper case is ASCII.
-/

namespace LayoutCompose

namespace Name

-- ---------------------------------------------------------------------------
-- Upper case
-- ---------------------------------------------------------------------------

def isInner (c : Char) : Bool := c.isAlphanum || c == '_'

/-- The letters outside ASCII that have ASCII letters for their upper case. -/
def foldedLetters : List Char := ['ß', 'ı', 'ſ', 'ﬀ', 'ﬁ', 'ﬂ', 'ﬃ', 'ﬄ', 'ﬅ', 'ﬆ']

theorem lt_of_isInner (h : isInner c = true) : c.toNat < 0x80 := by
  rcases Bool.or_eq_true_iff.mp h with hword | hscore
  · rcases Bool.or_eq_true_iff.mp hword with hletter | hdigit
    · rcases Bool.or_eq_true_iff.mp hletter with hupper | hlower
      · have hle : c.toNat ≤ 'Z'.toNat := UInt32.le_iff_toNat_le.mp (of_decide_eq_true hupper).2
        exact Nat.lt_of_le_of_lt hle (by decide)
      · have hle : c.toNat ≤ 'z'.toNat := UInt32.le_iff_toNat_le.mp
          (of_decide_eq_true (Bool.and_eq_true_iff.mp hlower).2)
        exact Nat.lt_of_le_of_lt hle (by decide)
    · exact Nat.lt_of_le_of_lt (Char.isDigit_iff_toNat.mp hdigit).2 (by decide)
  · rw [beq_iff_eq.mp hscore]
    decide

theorem isInner_ofNat (h : 0x80 ≤ n) : isInner (Char.ofNat n) = false := by
  refine eq_false_of_ne_true fun hinner => ?_
  by_cases hvalid : n.isValidChar
  · have hn : (Char.ofNat n).toNat = n := by rw [Char.ofNat, dif_pos hvalid]; rfl
    have hlt := lt_of_isInner hinner
    omega
  · rw [Char.ofNat, dif_neg hvalid] at hinner
    revert hinner
    decide

/-- A character outside ASCII becomes part of an identifier only if it is a folded letter. -/
theorem mem_foldedLetters (hc : 0x80 ≤ c.toNat)
    (h : ∀ d ∈ Text.uppercase c, isInner d = true) : c ∈ foldedLetters := by
  have hlong : ∀ entry ∈ Text.longUppercase,
      entry.1 ∈ foldedLetters.map Char.toNat ∨ ∃ n ∈ entry.2, 0x80 ≤ n := by decide
  have hruns : ∀ run ∈ Text.caseRuns, run.last < 0x80 ∨ 0x80 ≤ (run.first : Int) + run.shift ∨
      run.first = run.last ∧ run.first ∈ foldedLetters.map Char.toNat := by decide +kernel
  have hmem : c.toNat ∈ foldedLetters.map Char.toNat → c ∈ foldedLetters := by
    intro hcode
    obtain ⟨d, hd, hsame⟩ := List.mem_map.mp hcode
    rwa [← Char.toNat_inj.mp hsame]
  rw [Text.uppercase, if_neg (by omega)] at h
  split at h
  case h_1 codes hcodes =>
    obtain ⟨before, after, htable, -⟩ := List.lookup_eq_some_iff.mp hcodes
    have hentry : (c.toNat, codes) ∈ Text.longUppercase := by simp [htable]
    rcases hlong _ hentry with hfolded | ⟨n, hn, hlarge⟩
    · exact hmem hfolded
    · have hinner := h _ (List.mem_map_of_mem hn)
      rw [isInner_ofNat hlarge] at hinner
      cases hinner
  case h_2 =>
    split at h
    case h_1 run hrun =>
      have hcontains := List.find?_some hrun
      simp only [Text.CaseRun.contains, Bool.and_eq_true, decide_eq_true_eq] at hcontains
      rcases hruns run (List.mem_of_find?_eq_some hrun) with hascii | hlarge | ⟨hone, hfolded⟩
      · omega
      · have hinner := h _ List.mem_cons_self
        rw [isInner_ofNat (by rw [Text.CaseRun.upper]; omega)] at hinner
        cases hinner
      · refine hmem ?_
        rwa [show c.toNat = run.first by omega]
    case h_2 =>
      have hlt := lt_of_isInner (h c List.mem_cons_self)
      omega

theorem forall_mem_uppercase_iff (c : Char) :
    (∀ d ∈ Text.uppercase c, isInner d = true) ↔ isInner c = true ∨ c ∈ foldedLetters := by
  have hascii : ∀ n < 0x80, isInner (Char.ofNat n).toUpper = isInner (Char.ofNat n) := by decide
  have hfolded : ∀ c ∈ foldedLetters, ∀ d ∈ Text.uppercase c, isInner d = true := by
    decide +kernel
  by_cases hc : c.toNat < 0x80
  · have hsame := hascii c.toNat hc
    rw [Char.ofNat_toNat] at hsame
    rw [Text.uppercase, if_pos hc, List.forall_mem_singleton, hsame, iff_self_or]
    intro hmem
    have hlarge : ∀ c ∈ foldedLetters, 0x80 ≤ c.toNat := by decide
    exact absurd (hlarge c hmem) (by omega)
  · refine ⟨fun h => .inr (mem_foldedLetters (by omega) h), ?_⟩
    rintro (hinner | hmem)
    · exact absurd (lt_of_isInner hinner) hc
    · exact hfolded c hmem

-- ---------------------------------------------------------------------------
-- Words
-- ---------------------------------------------------------------------------

/-- A word of ASCII letters and digits, whose first letter may also be a folded one. -/
def IsPlainWord : List Char → Prop
  | [] => True
  | c :: rest => (c.isAlphanum = true ∨ c ∈ foldedLetters) ∧ ∀ d ∈ rest, d.isAlphanum = true

instance decidableIsPlainWord : DecidablePred IsPlainWord
  | [] => .isTrue trivial
  | c :: rest => @instDecidableAnd (c.isAlphanum = true ∨ c ∈ foldedLetters) _ inferInstance
      (List.decidableBAll (·.isAlphanum = true) rest)

def IsPlainStem (stem : String) : Prop :=
  ∀ word ∈ stem.toList.splitOnP isSeparator, IsPlainWord word

instance decidableIsPlainStem (stem : String) : Decidable (IsPlainStem stem) :=
  List.decidableBAll IsPlainWord _

theorem isInner_iff_of_ne (h : c ≠ '_') : isInner c = true ↔ c.isAlphanum = true := by
  simp [isInner, h]

theorem forall_mem_capitalize_iff {word : List Char} (h : '_' ∉ word) :
    (∀ c ∈ capitalize word, isInner c = true) ↔ IsPlainWord word := by
  cases word with
  | nil => simp [capitalize, IsPlainWord]
  | cons c rest =>
    rw [List.mem_cons, not_or] at h
    have hrest : (∀ d ∈ rest, isInner d = true) ↔ ∀ d ∈ rest, d.isAlphanum = true :=
      forall₂_congr fun d hd => isInner_iff_of_ne (ne_of_mem_of_not_mem hd h.2)
    rw [capitalize, List.forall_mem_append, forall_mem_uppercase_iff,
      isInner_iff_of_ne (Ne.symm h.1), hrest, IsPlainWord]

theorem forall_mem_camelCase_iff (stem : String) :
    (∀ c ∈ (camelCase stem).toList, isInner c = true) ↔ IsPlainStem stem := by
  have hfree : ∀ word ∈ stem.toList.splitOnP isSeparator, '_' ∉ word :=
    Text.not_mem_splitOnP (.inl (by decide))
  simp only [camelCase, String.toList_ofList, List.mem_flatMap, forall_exists_index, and_imp]
  rw [forall_comm]
  refine forall_congr' fun word => ?_
  rw [forall_comm]
  exact forall_congr' fun hword => forall_mem_capitalize_iff (hfree word hword)

-- ---------------------------------------------------------------------------
-- Identifiers
-- ---------------------------------------------------------------------------

theorem isLetter_iff (c : Char) :
    (c.isAlpha || c == '_') = true ↔ isInner c = true ∧ c.isDigit = false := by
  have hletters : ∀ n < 58, (Char.ofNat n).isAlpha = false := by decide
  by_cases hdigit : c.isDigit = true
  · have hle : c.toNat ≤ 57 := (Char.isDigit_iff_toNat.mp hdigit).2
    have halpha := hletters c.toNat (by omega)
    rw [Char.ofNat_toNat] at halpha
    have hscore : c ≠ '_' := by
      rintro rfl
      exact absurd hdigit (by decide)
    simp [halpha, hscore, hdigit]
  · simp [isInner, Char.isAlphanum, hdigit]

theorem isFunctionName_iff (l : List Char) :
    isFunctionName l = true ↔
      (∀ c ∈ l, isInner c = true) ∧ ∃ c, l.head? = some c ∧ c.isDigit = false := by
  cases l with
  | nil => simp [isFunctionName]
  | cons c rest =>
    rw [isFunctionName, Bool.and_eq_true, isLetter_iff, List.all_eq_true]
    simp only [List.forall_mem_cons, List.head?_cons, Option.some.injEq, exists_eq_left']
    exact and_right_comm

theorem isFunctionName_append (hl : l ≠ []) (h : ∀ c ∈ tail, isInner c = true) :
    isFunctionName (l ++ tail) = true ↔ isFunctionName l = true := by
  simp only [isFunctionName_iff, List.forall_mem_append, List.head?_append_of_ne_nil _ hl]
  exact and_congr_left fun _ => and_iff_left h

theorem isFunctionName_functionFor_iff (stem : String) :
    isFunctionName (functionFor stem).toList = true ↔ IsPlainStem stem := by
  rw [← forall_mem_camelCase_iff]
  simp only [functionFor]
  split
  case h_1 hnil =>
    exact iff_of_true (by decide) (by simp [hnil])
  case h_2 c rest hname =>
    obtain ⟨base, hbase⟩ : ∃ base : String,
        base = if c.isDigit then "Layout" ++ camelCase stem else camelCase stem := ⟨_, rfl⟩
    have hstart : isFunctionName base.toList = true ↔
        ∀ c ∈ (camelCase stem).toList, isInner c = true := by
      rw [hbase, isFunctionName_iff]
      split
      case isTrue =>
        have hword : ∀ c ∈ "Layout".toList, isInner c = true := by decide
        have hhead : ("Layout".toList ++ (camelCase stem).toList).head? = some 'L' := rfl
        rw [String.toList_append, List.forall_mem_append, hhead]
        exact ⟨fun h => h.1.2, fun h => ⟨⟨hword, h⟩, 'L', rfl, by decide⟩⟩
      case isFalse hdigit =>
        rw [hname]
        simp [hdigit]
    have hne : base.toList ≠ [] := by
      rw [hbase]
      split <;> simp [hname]
    rw [← hbase]
    split
    · exact hstart
    · rw [String.toList_append, isFunctionName_append hne (by decide), hstart]

theorem checkFunction_eq_ok_iff (name : String) :
    checkFunction name = .ok () ↔ isFunctionName name.toList = true := by
  unfold checkFunction
  split <;> simp_all

end Name

-- ---------------------------------------------------------------------------
-- Declarations
-- ---------------------------------------------------------------------------

def Declares (code name : String) : Prop := ("fun " ++ name ++ "() \x7b").toList <:+: code.toList

theorem Declares.append (h : Declares code name) (after : String) :
    Declares (code ++ after) name := by
  have hcode : (code ++ after).toList = code.toList ++ after.toList := String.toList_append
  rw [Declares, hcode]
  exact h.trans (List.prefix_append _ _).isInfix

theorem declares_append (before name after : String) :
    Declares (before ++ ("@Composable\n" ++ "fun ") ++ name ++ ("() \x7b" ++ after)) name :=
  ⟨(before ++ "@Composable\n").toList, after.toList,
    by simp only [String.toList_append, List.append_assoc]⟩

theorem Text.suffix_intercalate (between : List α) (before : List (List α)) (last : List α) :
    last <:+ between.intercalate (before ++ [last]) := by
  induction before with
  | nil => simp
  | cons first before ih =>
    rw [List.cons_append, List.intercalate_cons_of_ne_nil (by simp)]
    exact ih.trans (List.suffix_append _ _)

theorem Source.infix_assemble (imports : String) (listing : Option String)
    (h : Text.isBlankText code = false) :
    code.toList <:+: (assemble imports listing code).toList := by
  have hparts : (imports :: listing.toList ++ [code]).filter (fun part => !Text.isBlankText part) =
      (imports :: listing.toList).filter (fun part => !Text.isBlankText part) ++ [code] := by
    rw [List.filter_append]
    simp [h]
  rw [assemble, hparts, String.toList_append, String.toList_intercalate, List.map_append]
  exact (Text.suffix_intercalate _ _ _).isInfix.trans (List.prefix_append _ _).isInfix

namespace Conversion

theorem isPiece_declaration {name : String} (h : Name.isFunctionName name.toList = true) :
    Tidy.IsPiece ("fun " ++ name ++ "() \x7b").toList := by
  have hinner := ((Name.isFunctionName_iff _).mp h).1
  have hfree : ∀ c, Name.isInner c = false → c ∉ name.toList := by
    intro c hc hmem
    cases hc.symm.trans (hinner c hmem)
  have hend : "() \x7b".toList = ['(', ')', ' '] ++ ['\x7b'] := by decide
  constructor
  case comma => simpa using hfree ',' (by decide)
  case feed => simpa using hfree '\n' (by decide)
  case first => simpa using (by decide : Text.isBlank 'f' = false)
  case last =>
    rw [String.toList_append, hend, ← List.append_assoc, List.getLast?_concat]
    rintro c ⟨⟩
    decide

theorem composable_fun : "@Composable\nfun " = "@Composable\n" ++ "fun " := by decide

theorem declares_functionCode (name : String) (optIn : Bool) (body : String) :
    Declares (functionCode name optIn body) name := by
  have hopen : "() \x7b\n" = "() \x7b" ++ "\n" := by decide
  rw [functionCode, composable_fun, hopen]
  exact ((declares_append _ name "\n").append body).append _

theorem declares_stub (error : LayoutError) (name : String) : Declares (stub error name) name := by
  have hopen : "() \x7b\n    Text(\"Conversion failed\")\n\x7d\n" =
      "() \x7b" ++ "\n    Text(\"Conversion failed\")\n\x7d\n" := by decide
  unfold stub
  rw [composable_fun, hopen]
  exact declares_append _ name _

theorem declares_functionText (h : Name.isFunctionName name.toList = true) (root : Element)
    (body : String) : Declares (functionText name root body) name := by
  rw [Declares, functionText, Tidy.tidy, String.toList_ofList]
  exact (isPiece_declaration h).infix_tidyChars (declares_functionCode name _ body)

theorem declares_ofSource (options : Options) (source : String)
    (h : Name.isFunctionName options.function.toList = true) :
    Declares (ofSource options source).code options.function := by
  cases hread : Document.read options.limits source with
  | error error =>
    rw [ofSource_of_error hread]
    exact declares_stub error options.function
  | ok d =>
    obtain ⟨body, hbody⟩ := Document.exists_code hread 1
    have hfunction := declares_functionText h d.root body
    have hvisible : Text.isBlankText (functionText options.function d.root body) = false := by
      refine List.all_eq_false.mpr ⟨'f', hfunction.subset (by simp), by decide⟩
    rw [(presents_of_ok hread hbody).code]
    exact hfunction.trans (Source.infix_assemble _ _ hvisible)

end Conversion

theorem Declares.withPackage {c : Conversion} (h : Declares c.code name) (package : Option String) :
    Declares (c.withPackage package) name := by
  cases package with
  | none => exact h
  | some package =>
    refine h.trans ?_
    change _ <:+: ("package " ++ package ++ "\n\n" ++ c.code).toList
    rw [String.toList_append]
    exact (List.suffix_append _ _).isInfix

namespace Command

theorem batchOptions_function (options : Options) (layout : String) :
    (batchOptions options layout).function = Name.functionFor (Path.stem layout) := by
  simp only [batchOptions]

/-- The name for a stem passes the check of names exactly if the words of the stem are letters and
digits, and then the file that a batch writes for it declares a function of that name. -/
theorem checkFunction_functionFor_iff (stem : String) :
    (Name.checkFunction (Name.functionFor stem) = .ok () ↔ Name.IsPlainStem stem) ∧
    ∀ options package layout source, Path.stem layout = stem → Name.IsPlainStem stem →
      Declares ((batchConversion options layout source).withPackage package)
        (Name.functionFor stem) := by
  have hiff : Name.checkFunction (Name.functionFor stem) = .ok () ↔ Name.IsPlainStem stem :=
    (Name.checkFunction_eq_ok_iff _).trans (Name.isFunctionName_functionFor_iff stem)
  refine ⟨hiff, ?_⟩
  intro options package layout source hstem hplain
  have hfunction : (batchOptions options layout).function = Name.functionFor stem := by
    rw [batchOptions_function, hstem]
  have hname : Name.isFunctionName (batchOptions options layout).function.toList = true := by
    rw [hfunction]
    exact (Name.isFunctionName_functionFor_iff stem).mpr hplain
  have hdeclares := Conversion.declares_ofSource (batchOptions options layout) source hname
  rw [hfunction] at hdeclares
  exact hdeclares.withPackage package

theorem declares_ligature :
    Path.stem "res/2_ﬁne.xml" = "2_ﬁne" ∧ Name.IsPlainStem "2_ﬁne" ∧
      Name.checkFunction "Layout2FIneScreen" = .ok () ∧
      Declares ((batchConversion {} "res/2_ﬁne.xml" "<View/>").withPackage none)
        "Layout2FIneScreen" := by
  have hstem : Path.stem "res/2_ﬁne.xml" = "2_ﬁne" := by decide
  have hplain : Name.IsPlainStem "2_ﬁne" := by decide
  have hname : Name.functionFor "2_ﬁne" = "Layout2FIneScreen" := by decide +kernel
  obtain ⟨hcheck, hdeclares⟩ := checkFunction_functionFor_iff "2_ﬁne"
  rw [hname] at hcheck hdeclares
  exact ⟨hstem, hplain, hcheck.mpr hplain, hdeclares {} none _ "<View/>" hstem hplain⟩

/-- A plus sign in a stem comes into the name. -/
theorem functionFor_plusSign :
    Name.checkFunction (Name.functionFor "a+b") = .error (.badFunction "A+bScreen") := by
  decide

end Command

end LayoutCompose
