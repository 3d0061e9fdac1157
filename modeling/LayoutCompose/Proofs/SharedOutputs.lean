import LayoutCompose.Proofs.FunctionNames

/-!
# Layouts that share an output

The name of an output keeps the words of a stem but not what separates them, and it may get a
first word or a last one. So some stems share a name: those that say the same once the words are
run together, up to a last word `Screen`. Of the layouts of one directory that share a name, a
batch leaves the code of the last one; every other layout keeps a file of its own.
-/

namespace LayoutCompose

namespace Name

-- ---------------------------------------------------------------------------
-- Titles
-- ---------------------------------------------------------------------------

/-- A text without what separates its words, and with the first character of each word in upper
case; whether a word starts here is known. -/
def titleFrom (atStart : Bool) : List Char → List Char
  | [] => []
  | c :: rest =>
    if c == '_' || c == '-' || c == '.' || Text.isBlank c then titleFrom true rest
    else (if atStart then Text.uppercase c else [c]) ++ titleFrom false rest

/-- The words of a stem, run together. A title without words is `Composable`, and one that would
start with a digit starts with `Layout`. -/
def title (stem : String) : List Char :=
  match titleFrom true stem.toList with
  | [] => "Composable".toList
  | c :: rest => if c.isDigit then "Layout".toList ++ c :: rest else c :: rest

/-- Two stems share a name if they have one title, or if their titles differ in a last word
`Screen` only. -/
def SharesName (stem other : String) : Prop :=
  title stem = title other ∨
    (title other = title stem ++ "Screen".toList ∧ ¬ "Screen".toList <:+ title stem) ∨
    (title stem = title other ++ "Screen".toList ∧ ¬ "Screen".toList <:+ title other)

theorem titleFrom_eq (l : List Char) :
    ∃ word words, l.splitOnP isSeparator = word :: words ∧
      titleFrom true l = capitalize word ++ words.flatMap capitalize ∧
      titleFrom false l = word ++ words.flatMap capitalize := by
  induction l with
  | nil => exact ⟨[], [], rfl, rfl, rfl⟩
  | cons c rest ih =>
    obtain ⟨word, words, hsplit, hstart, hinner⟩ := ih
    rw [List.splitOnP_cons_eq_if_modifyHead, hsplit]
    by_cases hc : isSeparator c = true
    · refine ⟨[], word :: words, by rw [if_pos hc], ?_, ?_⟩ <;>
        rw [titleFrom, ← isSeparator, if_pos hc, hstart, List.flatMap_cons] <;> rfl
    · refine ⟨c :: word, words, by rw [if_neg hc]; rfl, ?_, ?_⟩ <;>
        rw [titleFrom, ← isSeparator, if_neg hc, hinner]
      · rw [if_pos rfl, capitalize, List.append_assoc]
      · rfl

theorem toList_camelCase (stem : String) : (camelCase stem).toList = titleFrom true stem.toList := by
  obtain ⟨word, words, hsplit, hstart, -⟩ := titleFrom_eq stem.toList
  rw [camelCase, String.toList_ofList, hsplit, List.flatMap_cons, hstart]

def ensureEnd (ending text : List Char) : List Char :=
  if ending <:+ text then text else text ++ ending

theorem ensureEnd_eq_iff (ending text other : List Char) :
    ensureEnd ending text = ensureEnd ending other ↔
      text = other ∨ (other = text ++ ending ∧ ¬ ending <:+ text) ∨
        (text = other ++ ending ∧ ¬ ending <:+ other) := by
  have hends : ∀ l : List Char, ending <:+ l ++ ending := fun l => List.suffix_append l ending
  unfold ensureEnd
  by_cases htext : ending <:+ text <;> by_cases hother : ending <:+ other
  · simp [htext, hother]
  · have hne : text ≠ other := fun h => hother (h ▸ htext)
    simp [htext, hother, hne]
  · have hne : text ≠ other := fun h => htext (h ▸ hother)
    simp [htext, hother, hne, eq_comm]
  · have hlonger : other ≠ text ++ ending := fun h => hother (h ▸ hends text)
    have hshorter : text ≠ other ++ ending := fun h => htext (h ▸ hends other)
    simp [htext, hother, hlonger, hshorter]

theorem toList_functionFor (stem : String) :
    (functionFor stem).toList = ensureEnd "Screen".toList (title stem) := by
  rw [title, ← toList_camelCase]
  simp only [functionFor]
  cases hchars : (camelCase stem).toList with
  | nil =>
    have hdefault : defaultFunction.toList = ensureEnd "Screen".toList "Composable".toList := by
      decide
    exact hdefault
  | cons c rest =>
    simp only [ensureEnd, Text.endsWith, List.isSuffixOf_iff_suffix]
    cases hdigit : c.isDigit with
    | true =>
      simp only [if_true, String.toList_append, hchars]
      split <;> simp [String.toList_append, hchars]
    | false =>
      simp only [Bool.false_eq_true, if_false, hchars]
      split <;> simp [String.toList_append, hchars]

theorem functionFor_eq_iff (stem other : String) :
    functionFor stem = functionFor other ↔ SharesName stem other := by
  rw [← String.toList_inj, toList_functionFor, toList_functionFor, ensureEnd_eq_iff]
  rfl

-- ---------------------------------------------------------------------------
-- Stems of resources
-- ---------------------------------------------------------------------------

def IsResourceStem (stem : String) : Prop :=
  stem.toList.head?.any Char.isLower = true ∧ ∀ c ∈ stem.toList, isPartCharacter c = true

/-- A text without the underscores that have no letter right after them. -/
def squeeze : List Char → List Char
  | [] => []
  | c :: rest =>
    if c == '_' && !rest.head?.any Char.isLower then squeeze rest else c :: squeeze rest

/-- The underscores and lower-case letters that a title was made from. -/
def untitle (title : List Char) : List Char :=
  title.flatMap fun c => if c.isUpper then ['_', c.toLower] else [c]

theorem untitle_append (l rest : List Char) : untitle (l ++ rest) = untitle l ++ untitle rest :=
  List.flatMap_append

theorem forall_partCharacter {P : Char → Prop}
    (hascii : ∀ n < 0x80, isPartCharacter (Char.ofNat n) = true → P (Char.ofNat n))
    (h : isPartCharacter c = true) : P c := by
  have hlt : c.toNat < 0x80 := lt_of_isInner (by
    unfold isInner Char.isAlphanum Char.isAlpha
    simp only [isPartCharacter, Bool.or_eq_true] at h ⊢
    grind)
  have hchar := hascii c.toNat hlt
  rw [Char.ofNat_toNat] at hchar
  exact hchar h

theorem separates_partCharacter (h : isPartCharacter c = true) :
    (c == '_' || c == '-' || c == '.' || Text.isBlank c) = (c == '_') :=
  forall_partCharacter
    (P := fun c => (c == '_' || c == '-' || c == '.' || Text.isBlank c) = (c == '_')) (by decide) h

theorem untitle_partCharacter (h : isPartCharacter c = true) : untitle [c] = [c] :=
  forall_partCharacter (P := fun c => untitle [c] = [c]) (by decide) h

theorem uppercase_partCharacter (h : isPartCharacter c = true) :
    Text.uppercase c = [if c.isLower then c.toUpper else c] :=
  forall_partCharacter (P := fun c => Text.uppercase c = [if c.isLower then c.toUpper else c])
    (by decide) h

theorem untitle_uppercase (h : isPartCharacter c = true) :
    untitle (Text.uppercase c) = if c.isLower then ['_', c] else [c] :=
  forall_partCharacter
    (P := fun c => untitle (Text.uppercase c) = if c.isLower then ['_', c] else [c]) (by decide) h

theorem titleFrom_cons (h : isPartCharacter c = true) (hmark : c ≠ '_') (atStart : Bool)
    (rest : List Char) :
    titleFrom atStart (c :: rest) =
      (if atStart then Text.uppercase c else [c]) ++ titleFrom false rest := by
  rw [titleFrom, separates_partCharacter h, if_neg (by simpa using hmark)]

theorem squeeze_titleFrom (l : List Char) (h : ∀ c ∈ l, isPartCharacter c = true) :
    untitle (titleFrom false l) = squeeze l ∧ untitle (titleFrom true l) = squeeze ('_' :: l) := by
  induction l with
  | nil => decide
  | cons c rest ih =>
    obtain ⟨hc, hrest⟩ := List.forall_mem_cons.mp h
    obtain ⟨hinner, hstart⟩ := ih hrest
    by_cases hmark : c = '_'
    · subst hmark
      have htwice : squeeze ('_' :: '_' :: rest) = squeeze ('_' :: rest) := rfl
      rw [htwice]
      exact ⟨hstart, hstart⟩
    · have hkept : squeeze (c :: rest) = c :: squeeze rest := by simp [squeeze, hmark]
      constructor
      · rw [titleFrom_cons hc hmark, if_neg Bool.false_ne_true, untitle_append,
          untitle_partCharacter hc, hinner, hkept, List.singleton_append]
      · rw [titleFrom_cons hc hmark, if_pos rfl, untitle_append, untitle_uppercase hc, hinner, squeeze]
        cases hlower : c.isLower <;> simp [hlower, hkept]

theorem titleFrom_append (atStart : Bool) (l rest : List Char) :
    titleFrom atStart (l ++ '_' :: rest) = titleFrom atStart l ++ titleFrom true rest := by
  induction l generalizing atStart with
  | nil => rfl
  | cons c l ih =>
    rw [List.cons_append, titleFrom, titleFrom, ih, ih]
    split
    · rfl
    · rw [List.append_assoc]

/-- Where no letter comes first, it does not matter whether a word starts. -/
theorem titleFrom_of_not_lower {l : List Char} (h : ∀ c ∈ l, isPartCharacter c = true)
    (hlower : l.head?.any Char.isLower = false) (atStart : Bool) :
    titleFrom atStart l = titleFrom true l := by
  cases l with
  | nil => rfl
  | cons c rest =>
    by_cases hmark : c = '_'
    · subst hmark
      rfl
    · have hc := h c List.mem_cons_self
      have hchar : c.isLower = false := by simpa using hlower
      rw [titleFrom_cons hc hmark, titleFrom_cons hc hmark, uppercase_partCharacter hc, hchar,
        if_neg Bool.false_ne_true, ite_self, ite_self]

theorem titleFrom_squeeze (l : List Char) (h : ∀ c ∈ l, isPartCharacter c = true)
    (atStart : Bool) : titleFrom atStart (squeeze l) = titleFrom atStart l := by
  induction l generalizing atStart with
  | nil => rfl
  | cons c rest ih =>
    obtain ⟨hc, hrest⟩ := List.forall_mem_cons.mp h
    rw [squeeze]
    split
    · next hdropped =>
      simp only [Bool.and_eq_true, beq_iff_eq, Bool.not_eq_true'] at hdropped
      obtain ⟨rfl, hlower⟩ := hdropped
      rw [ih hrest, titleFrom_of_not_lower hrest hlower]
      rfl
    · rw [titleFrom, titleFrom, ih hrest, ih hrest]

/-- The name of a resource with an underscore before every word that starts with a letter, and no
other underscore. -/
def marked (stem : String) : List Char := squeeze ('_' :: stem.toList)

section
variable {stem other : String}

theorem title_of_resource (h : IsResourceStem stem) : title stem = titleFrom true stem.toList := by
  obtain ⟨hfirst, hchars⟩ := h
  rw [title]
  cases hstem : stem.toList with
  | nil => simp [hstem] at hfirst
  | cons c rest =>
    rw [hstem] at hfirst hchars
    have hc := hchars c List.mem_cons_self
    have hlower : c.isLower = true := by simpa using hfirst
    have hmark : c ≠ '_' := by
      rintro rfl
      cases hlower
    have hdigit : c.toUpper.isDigit = false :=
      forall_partCharacter (P := fun c => c.isLower = true → c.toUpper.isDigit = false) (by decide)
        hc hlower
    rw [titleFrom_cons hc hmark, if_pos rfl, uppercase_partCharacter hc, hlower, if_pos rfl]
    simp [hdigit]

theorem untitle_title (h : IsResourceStem stem) : untitle (title stem) = marked stem := by
  rw [title_of_resource h, marked, (squeeze_titleFrom _ h.2).2]

theorem titleFrom_marked (h : IsResourceStem stem) : titleFrom false (marked stem) = title stem := by
  rw [marked, titleFrom_squeeze _ (List.forall_mem_cons.mpr ⟨rfl, h.2⟩), title_of_resource h]
  rfl

theorem titleFrom_marked_screen (h : IsResourceStem stem) :
    titleFrom false (marked stem ++ "_screen".toList) = title stem ++ "Screen".toList := by
  have hword : titleFrom true "screen".toList = "Screen".toList := by decide
  have happend := titleFrom_append false (marked stem) "screen".toList
  rwa [titleFrom_marked h, hword] at happend

theorem untitle_title_screen (h : IsResourceStem stem) :
    untitle (title stem ++ "Screen".toList) = marked stem ++ "_screen".toList := by
  have hword : untitle "Screen".toList = "_screen".toList := by decide
  rw [untitle_append, untitle_title h, hword]

theorem suffix_title_iff (h : IsResourceStem stem) :
    "Screen".toList <:+ title stem ↔ "_screen".toList <:+ marked stem := by
  constructor
  · rintro ⟨before, hbefore⟩
    have hword : untitle "Screen".toList = "_screen".toList := by decide
    rw [← untitle_title h, ← hbefore, untitle_append, hword]
    exact List.suffix_append _ _
  · rintro ⟨before, hbefore⟩
    have hword : titleFrom true "screen".toList = "Screen".toList := by decide
    have happend := titleFrom_append false before "screen".toList
    rw [← titleFrom_marked h, ← hbefore]
    exact ⟨_, (hword ▸ happend).symm⟩

/-- Names of resources say the same but for underscores that have no letter after them, and for a
last word. -/
theorem sharesName_iff (h : IsResourceStem stem) (hother : IsResourceStem other) :
    SharesName stem other ↔
      marked stem = marked other ∨
        (marked other = marked stem ++ "_screen".toList ∧ ¬ "_screen".toList <:+ marked stem) ∨
        (marked stem = marked other ++ "_screen".toList ∧ ¬ "_screen".toList <:+ marked other) := by
  have hsame : title stem = title other ↔ marked stem = marked other := by
    constructor <;> intro heq
    · rw [← untitle_title h, heq, untitle_title hother]
    · rw [← titleFrom_marked h, heq, titleFrom_marked hother]
  have hlonger : ∀ {stem other}, IsResourceStem stem → IsResourceStem other →
      (title other = title stem ++ "Screen".toList ↔
        marked other = marked stem ++ "_screen".toList) := by
    intro stem other h hother
    constructor <;> intro heq
    · rw [← untitle_title hother, heq, untitle_title_screen h]
    · rw [← titleFrom_marked hother, heq, titleFrom_marked_screen h]
  rw [SharesName, hsame, hlonger h hother, hlonger hother h, suffix_title_iff h,
    suffix_title_iff hother]

end

end Name

namespace Command

-- ---------------------------------------------------------------------------
-- Batches
-- ---------------------------------------------------------------------------

def Collide (root layout other : String) : Prop :=
  ∃ names base another, (∀ name ∈ names, Path.IsName name) ∧ Path.IsStem base ∧
    Path.IsStem another ∧ layout = Path.below root (names ++ [base ++ ".xml"]) ∧
    other = Path.below root (names ++ [another ++ ".xml"]) ∧ Name.SharesName base another

theorem outputFor_eq_iff {t : FileTree} (hnamed : t.WellNamed)
    (hroot : t.isDirectory root = true) (h : layout ∈ t.layouts root)
    (hother : other ∈ t.layouts root) (out : String) :
    Path.outputFor root out layout = Path.outputFor root out other ↔ Collide root layout other := by
  constructor
  · intro heq
    obtain ⟨names, base, hnames, hbase, rfl⟩ :=
      FileTree.exists_below_of_mem_layouts hnamed hroot h
    obtain ⟨others, another, hothers, hanother, rfl⟩ :=
      FileTree.exists_below_of_mem_layouts hnamed hroot hother
    obtain ⟨rfl, hfunction⟩ := (Path.components_outputFor_eq_iff root out hnames hbase hothers
      hanother).mp (congrArg Path.components heq)
    exact ⟨names, base, another, hnames, hbase, hanother, rfl, rfl,
      (Name.functionFor_eq_iff base another).mp hfunction⟩
  · rintro ⟨names, base, another, hnames, hbase, hanother, rfl, rfl, hshares⟩
    rw [Path.outputFor_below hnames hbase, Path.outputFor_below hnames hanother,
      Path.fileFor_inj.mpr ((Name.functionFor_eq_iff base another).mpr hshares)]

/-- Two layouts below a root share an output if and only if they are in the same directory and
their stems share a name. A batch leaves the code of the last of the layouts that share an output,
so that a layout that shares its output with no other keeps a file of its own. -/
theorem outputs_of_run (settings : Settings) (package : Option String) (root out : String)
    (s : Session) (hnamed : s.files.WellNamed) (hroot : s.files.isDirectory root = true)
    (hsome : s.files.layouts root ≠ [])
    (htext : ∀ layout ∈ s.files.layouts root, s.files.read layout ≠ .error .notText)
    (hrun : (convertDirectory settings package root out).run.run s = (result, next))
    (hsaved : ∀ fault, result = .error fault → fault.isUnsaved = false) :
    (∀ names base others another, (∀ name ∈ names, Path.IsName name) → Path.IsStem base →
      (∀ name ∈ others, Path.IsName name) → Path.IsStem another →
      (Path.components (Path.outputFor root out (Path.below root (names ++ [base ++ ".xml"]))) =
          Path.components
            (Path.outputFor root out (Path.below root (others ++ [another ++ ".xml"]))) ↔
        names = others ∧ Name.SharesName base another)) ∧
    (∀ layout ∈ s.files.layouts root,
      (∀ other ∈ s.files.layouts root, Collide root layout other → other = layout) →
      ∃ source, s.files.read layout = .ok source ∧
        next.files.read (Path.outputFor root out layout) = .ok
          ((Conversion.ofSource (batchOptions settings.options layout) source).withPackage package)) ∧
    ∀ layout ∈ s.files.layouts root, ∃ last ∈ s.files.layouts root, Collide root layout last ∧
      (∀ other ∈ s.files.layouts root, Collide root layout other →
        FileTree.namesLe (Path.components other) (Path.components last) = true) ∧
      ∃ source, s.files.read last = .ok source ∧
        next.files.read (Path.outputFor root out layout) = .ok
          ((Conversion.ofSource (batchOptions settings.options last) source).withPackage package) := by
  obtain ⟨source, rejected, mid, hread, -, hsaves, -, -⟩ :=
    savesAll_of_run hnamed hroot hsome htext hrun hsaved
  have hlast : ∀ layout ∈ s.files.layouts root, ∃ last ∈ s.files.layouts root,
      Collide root layout last ∧
      (∀ other ∈ s.files.layouts root, Collide root layout other →
        FileTree.namesLe (Path.components other) (Path.components last) = true) ∧
      ∃ source, s.files.read last = .ok source ∧
        next.files.read (Path.outputFor root out layout) =
          .ok ((batchConversion settings.options last source).withPackage package) := by
    intro layout hlayout
    obtain ⟨last, hmem, hsame, hmax, hheld⟩ := output_of_savesAll hnamed hroot hsaves hlayout
    refine ⟨last, hmem, (outputFor_eq_iff hnamed hroot hlayout hmem out).mp hsame.symm,
      fun other hother hcollide => hmax other hother ?_, source last, hread last hmem, hheld⟩
    exact ((outputFor_eq_iff hnamed hroot hlayout hother out).mpr hcollide).symm
  refine ⟨?_, ?_, hlast⟩
  · intro names base others another hnames hbase hothers hanother
    rw [Path.components_outputFor_eq_iff root out hnames hbase hothers hanother,
      Name.functionFor_eq_iff]
  · intro layout hlayout halone
    obtain ⟨last, hmem, hcollide, -, hheld⟩ := hlast layout hlayout
    obtain rfl := halone last hmem hcollide
    exact hheld

theorem collide_overlap : Collide "res" "res/a-b.xml" "res/a_b.xml" := by
  refine ⟨[], "a-b", "a_b", by simp, ⟨by decide, by decide⟩, ⟨by decide, by decide⟩, by decide,
    by decide, .inl ?_⟩
  decide

theorem outputs_overlap :
    Collide "res" "res/a-b.xml" "res/a_b.xml" ∧
      ∃ next, (convertDirectory {} none "res" "res").run.run overlap =
          (.error (.someRejected 1), next) ∧
        next.files.read (Path.outputFor "res" "res" "res/a-b.xml") = .ok
          ((Conversion.ofSource (batchOptions ({} : Settings).options "res/a_b.xml")
            "<a>").withPackage none) := by
  have hresult : ((convertEach ({} : Settings).options none "res" "res"
      ["res/a-b.xml", "res/a_b.xml"]).run.run overlap).1 = .ok ["res/a_b.xml"] := by
    decide +kernel
  rw [← layouts_overlap] at hresult
  have hsome : overlap.files.layouts "res" ≠ [] := by simp [layouts_overlap]
  have htext : ∀ layout ∈ overlap.files.layouts "res",
      overlap.files.read layout ≠ .error .notText := by
    rw [layouts_overlap]
    decide
  obtain ⟨next, hrun, -⟩ := run_convertDirectory {} hsome (Prod.ext hresult rfl)
  refine ⟨collide_overlap, next, hrun, ?_⟩
  obtain ⟨-, -, hshared⟩ := outputs_of_run {} none "res" "res" overlap wellNamed_overlap (by decide)
    hsome htext hrun (by rintro fault ⟨⟩; rfl)
  rw [layouts_overlap] at hshared
  obtain ⟨last, hlast, -, hmax, source, hread, hheld⟩ := hshared "res/a-b.xml" (by simp)
  have hlater := hmax "res/a_b.xml" (by simp) collide_overlap
  rcases List.mem_pair.mp hlast with rfl | rfl
  · have hfirst : Path.components "res/a-b.xml" = ["res", "a-b.xml"] := by decide
    have hsecond : Path.components "res/a_b.xml" = ["res", "a_b.xml"] := by decide
    rw [hfirst, hsecond] at hlater
    exact absurd hlater (by decide)
  · have hsource : overlap.files.read "res/a_b.xml" = .ok "<a>" := by decide
    rw [hsource] at hread
    obtain rfl := Except.ok.inj hread
    exact hheld

def twins : Session where
  files := ⟨[(⟨.working 0, ["res"]⟩, .directory),
    (⟨.working 0, ["res", "a-b.xml"]⟩, .file (some "<FrameLayout/>")),
    (⟨.working 0, ["res", "a_b.xml"]⟩, .file (some "<FrameLayout/>"))]⟩

/-- Two layouts are counted as converted, and there is one file for them. -/
theorem converted_twins :
    twins.files.layouts "res" = ["res/a-b.xml", "res/a_b.xml"] ∧
      Path.outputFor "res" "out" "res/a-b.xml" = "out/ABScreen.kt" ∧
      Path.outputFor "res" "out" "res/a_b.xml" = "out/ABScreen.kt" ∧
      ((convertDirectory {} none "res" "out").run.run twins).1 = .ok () ∧
      ((convertDirectory {} none "res" "out").run.run twins).2.output =
        [.text "   Converted 2 layout(s) into out in ", .elapsed, .text "s\n"] := by
  have hplace : Place.ofPath "res" = ⟨.working 0, ["res"]⟩ := by decide
  have hbelow : twins.files.below ⟨.working 0, ["res"]⟩ = [["a-b.xml"], ["a_b.xml"]] :=
    List.mergeSort_of_pairwise (by decide)
  have hlayouts : twins.files.layouts "res" = ["res/a-b.xml", "res/a_b.xml"] := by
    rw [FileTree.layouts_eq (by decide), hplace, hbelow]
    decide
  have hsome : twins.files.layouts "res" ≠ [] := by simp [hlayouts]
  have hresult : ((convertEach ({} : Settings).options none "res" "out"
        ["res/a-b.xml", "res/a_b.xml"]).run.run twins).1 = .ok [] ∧
      ((convertEach ({} : Settings).options none "res" "out"
        ["res/a-b.xml", "res/a_b.xml"]).run.run twins).2.output = [] := by
    decide +kernel
  rw [← hlayouts] at hresult
  obtain ⟨hdone, hquiet⟩ := hresult
  obtain ⟨next, hrun, -, -, houtput⟩ := run_convertDirectory {} hsome (Prod.ext hdone rfl)
  refine ⟨hlayouts, by decide, by decide, by rw [hrun]; rfl, ?_⟩
  rw [hrun, houtput, hquiet, hlayouts]
  decide

end Command

end LayoutCompose
