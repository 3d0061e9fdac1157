import LayoutCompose.Command.Convert
import LayoutCompose.Proofs.FileTrees
import LayoutCompose.Proofs.Rejection

/-!
# Converting the layouts of a directory

Outputs have names that no layout has, so that writing one leaves every layout as it was, wherever
the output directory is. One turn of the batch reads its layout and saves its code; the turns
together save the code of each layout in the order in which the layouts were found.
-/

namespace LayoutCompose

namespace Command

-- ---------------------------------------------------------------------------
-- Running commands
-- ---------------------------------------------------------------------------

theorem run_bind_of_ok {m : Command α} (h : m.run.run s = (.ok a, next)) (f : α → Command β) :
    (m >>= f).run.run s = (f a).run.run next := by
  rw [ExceptT.run_bind, StateT.run_bind, h]
  rfl

theorem run_bind_of_error {m : Command α} (h : m.run.run s = (.error fault, next))
    (f : α → Command β) : (m >>= f).run.run s = (.error fault, next) := by
  rw [ExceptT.run_bind, StateT.run_bind, h]
  rfl

theorem run_getFiles (s : Session) : getFiles.run.run s = (.ok s.files, s) := rfl

theorem run_printLines (lines : List String) (s : Session) :
    (printLines lines).run.run s = (.ok (), { s with messages := s.messages ++ lines }) := rfl

theorem run_convertLayout (h : s.files.read layout = .ok source) (options : Options) :
    (convertLayout options layout).run.run s = (.ok (.ofSource options source), s) := by
  rw [convertLayout, run_bind_of_ok (run_getFiles s), h]
  rfl

theorem run_layouts (h : s.files.layouts root ≠ []) :
    (layouts root).run.run s = (.ok (s.files.layouts root), s) := by
  rw [layouts, run_bind_of_ok (run_getFiles s)]
  split
  · contradiction
  · rfl

theorem run_makeDirectories (path : String) (s : Session) :
    (makeDirectories path).run.run s =
      ((s.files.makeDirectories path).2.mapError fun _ => .notMade path,
        { s with files := (s.files.makeDirectories path).1 }) := by
  rw [makeDirectories, run_bind_of_ok (run_getFiles s)]
  cases s.files.makeDirectories path with
  | mk files result => cases result <;> rfl

-- ---------------------------------------------------------------------------
-- One turn
-- ---------------------------------------------------------------------------

def Fault.isUnsaved : Fault → Bool
  | notMade _ | notWritten _ => true
  | _ => false

/-- What a run that writes can come to: a fault of writing, or a result that fits the session
that is left. -/
def Writes (m : Command α) (s : Session) (Q : α → Session → Prop) : Prop :=
  (∃ fault next, m.run.run s = (.error fault, next) ∧ fault.isUnsaved = true) ∨
    ∃ a next, m.run.run s = (.ok a, next) ∧ Q a next

theorem Writes.after {m : Command α} {f : α → Command β} (hrun : m.run.run s = (.ok a, next))
    (h : Writes (f a) next Q) : Writes (m >>= f) s Q := by
  rwa [Writes, ← run_bind_of_ok hrun f] at h

theorem Writes.bind {m : Command α} {f : α → Command β} (h : Writes m s Q)
    (hf : ∀ a next, Q a next → Writes (f a) next R) : Writes (m >>= f) s R := by
  rcases h with ⟨fault, next, hrun, hfault⟩ | ⟨a, next, hrun, ha⟩
  · exact .inl ⟨fault, next, run_bind_of_error hrun f, hfault⟩
  · exact .after hrun (hf a next ha)

theorem writes_makeDirectories (path : String) (s : Session) :
    Writes (makeDirectories path) s fun _ next =>
      (∀ q, s.files.Keeps next.files q) ∧ next.messages = s.messages := by
  have hrun := run_makeDirectories path s
  have hkeeps := FileTree.keeps_makeDirectories s.files path
  cases hresult : (s.files.makeDirectories path).2 with
  | error fault =>
    rw [hresult] at hrun
    exact .inl ⟨_, _, hrun, rfl⟩
  | ok _ =>
    rw [hresult] at hrun
    exact .inr ⟨_, _, hrun, hkeeps, rfl⟩

theorem writes_save (path text : String) (s : Session) :
    Writes (save path text) s fun _ next =>
      s.files.Saves path text next.files ∧ next.messages = s.messages := by
  refine .after (run_getFiles s) ?_
  cases hwrite : s.files.write path text with
  | error fault => exact .inl ⟨_, _, rfl, rfl⟩
  | ok files => exact .inr ⟨_, _, rfl, FileTree.saves_of_write hwrite, rfl⟩

theorem writes_write (path text : String) (s : Session) :
    Writes (write path text) s fun _ next =>
      s.files.Saves path text next.files ∧ next.messages = s.messages := by
  have hway : Writes ((Path.parent? path).forM makeDirectories) s fun _ next =>
      (∀ q, s.files.Keeps next.files q) ∧ next.messages = s.messages := by
    cases Path.parent? path with
    | none => exact .inr ⟨(), s, rfl, fun q => .inl rfl, rfl⟩
    | some directory => exact writes_makeDirectories directory s
  rw [write]
  refine hway.bind fun _ next hnext => ?_
  obtain ⟨hkeeps, hquiet⟩ := hnext
  rcases writes_save path text next with hfault | ⟨a, last, hrun, hsaves, hmessages⟩
  · exact .inl hfault
  · exact .inr ⟨a, last, hrun, hsaves.of_keeps hkeeps, hmessages.trans hquiet⟩

-- ---------------------------------------------------------------------------
-- All turns
-- ---------------------------------------------------------------------------

theorem batchOptions_limits (options : Options) (layout : String) :
    (batchOptions options layout).limits = options.limits := by
  simp only [batchOptions]

def batchConversion (options : Options) (layout source : String) : Conversion :=
  .ofSource (batchOptions options layout) source

theorem batchConversion_of_error (h : Document.read options.limits source = .error error) :
    batchConversion options layout source =
      .ofError error (Name.functionFor (Path.stem layout)) := by
  rw [← batchOptions_limits options layout] at h
  rw [batchConversion, Conversion.ofSource_of_error h, batchOptions]

def saved (options : Options) (package : Option String) (root out : String)
    (source : String → String) (found : List String) : List (String × String) :=
  found.map fun layout => (Path.outputFor root out layout,
    (batchConversion options layout (source layout)).withPackage package)

theorem saved_append_cons (before after : List String) (layout : String) :
    saved options package root out source (before ++ layout :: after) =
      saved options package root out source before ++ (Path.outputFor root out layout,
        (batchConversion options layout (source layout)).withPackage package) ::
          saved options package root out source after := by
  rw [saved, saved, saved, List.map_append, List.map_cons]

theorem exists_of_mem_saved (h : first ∈ saved options package root out source found) :
    ∃ layout ∈ found, first.1 = Path.outputFor root out layout := by
  obtain ⟨layout, hlayout, hfirst⟩ := List.mem_map.mp h
  exact ⟨layout, hlayout, by rw [← hfirst]⟩

theorem mem_saved (h : layout ∈ found) :
    (Path.outputFor root out layout,
      (batchConversion options layout (source layout)).withPackage package) ∈
        saved options package root out source found :=
  List.mem_map.mpr ⟨layout, h, rfl⟩

def batchLines (options : Options) (source : String → String) (found : List String) :
    List String :=
  found.flatMap fun layout => diagnosticLines layout (batchConversion options layout (source layout))

theorem writes_convertEach (options : Options) (package : Option String) (root out : String)
    (source : String → String) (found : List String) (s : Session)
    (hread : ∀ layout ∈ found, s.files.read layout = .ok (source layout))
    (hapart : ∀ layout ∈ found, ∀ other ∈ found,
      Place.ofPath layout ≠ Place.ofPath (Path.outputFor root out other)) :
    Writes (convertEach options package root out found) s fun rejected next =>
      rejected = found.filter
        (fun layout => (batchConversion options layout (source layout)).isFailure) ∧
      s.files.SavesAll (saved options package root out source found) next.files ∧
      next.messages = s.messages ++ batchLines options source found := by
  induction found generalizing s with
  | nil => exact .inr ⟨[], s, rfl, rfl, rfl, (List.append_nil _).symm⟩
  | cons layout rest ih =>
    obtain ⟨hlayout, hrest⟩ := List.forall_mem_cons.mp hread
    rw [convertEach]
    refine .after (run_convertLayout hlayout _) (.after (run_printLines _ s) ?_)
    refine (writes_write _ _ _).bind fun _ next hnext => ?_
    obtain ⟨hsaves, hmessages⟩ := hnext
    have hkept : ∀ other ∈ rest, next.files.read other = .ok (source other) := fun other hother =>
      hsaves.read_of_ne (hapart other (List.mem_cons_of_mem _ hother) layout List.mem_cons_self)
        (hrest other hother)
    have hothers : ∀ other ∈ rest, ∀ another ∈ rest,
        Place.ofPath other ≠ Place.ofPath (Path.outputFor root out another) :=
      fun other hother another hanother =>
        hapart other (List.mem_cons_of_mem _ hother) another (List.mem_cons_of_mem _ hanother)
    refine (ih next hkept hothers).bind fun rejected last hlast => ?_
    obtain ⟨rfl, hall, hlines⟩ := hlast
    refine .inr ⟨_, last, rfl, ?_, ⟨next.files, hsaves, hall⟩, ?_⟩
    · rw [List.filter_cons]
      rfl
    · rw [hlines, hmessages, batchLines, batchLines, List.flatMap_cons, List.append_assoc]
      rfl

theorem convertEach_append (options : Options) (package : Option String) (root out : String)
    (found rest : List String) :
    convertEach options package root out (found ++ rest) = do
      let rejected ← convertEach options package root out found
      let others ← convertEach options package root out rest
      return rejected ++ others := by
  induction found with
  | nil => simp [convertEach]
  | cons layout found ih =>
    simp only [List.cons_append, convertEach, ih, bind_assoc, pure_bind]
    refine bind_congr fun conversion => bind_congr fun _ => bind_congr fun _ => ?_
    refine bind_congr fun rejected => bind_congr fun others => ?_
    split <;> rfl

end Command

-- ---------------------------------------------------------------------------
-- Places of layouts and outputs
-- ---------------------------------------------------------------------------

namespace FileTree

variable {t : FileTree} {root : String}

theorem exists_ofPath_outputFor (hnamed : t.WellNamed) (hroot : t.isDirectory root = true)
    (h : layout ∈ t.layouts root) (out : String) :
    ∃ names base, Path.IsStem base ∧
      Place.ofPath layout =
        ⟨(Place.ofPath root).base, (Place.ofPath root).names ++ (names ++ [base ++ ".xml"])⟩ ∧
      Path.outputFor root out layout = Path.below out (names ++ [Name.fileFor base]) ∧
      Place.ofPath (Path.outputFor root out layout) =
        ⟨(Place.ofPath out).base, (Place.ofPath out).names ++ (names ++ [Name.fileFor base])⟩ := by
  obtain ⟨names, base, hnames, hbase, rfl⟩ := exists_below_of_mem_layouts hnamed hroot h
  have hout := Path.outputFor_below hnames hbase root out
  refine ⟨names, base, hbase, ?_, hout, ?_⟩
  · exact Place.ofPath_below (Path.forall_mem_concat hnames hbase.layout) root
  · rw [hout]
    exact Place.ofPath_below (Path.forall_mem_concat hnames hbase.fileFor) out

/-- Outputs at one place are one path. -/
theorem outputFor_eq_of_ofPath_eq (hnamed : t.WellNamed) (hroot : t.isDirectory root = true)
    (h : layout ∈ t.layouts root) (hother : other ∈ t.layouts root)
    (hplace : Place.ofPath (Path.outputFor root out layout) =
      Place.ofPath (Path.outputFor root out other)) :
    Path.outputFor root out layout = Path.outputFor root out other := by
  obtain ⟨names, base, -, -, hout, hof⟩ := exists_ofPath_outputFor hnamed hroot h out
  obtain ⟨names', base', -, -, hout', hof'⟩ := exists_ofPath_outputFor hnamed hroot hother out
  rw [hof, hof', Place.mk.injEq, List.append_cancel_left_eq] at hplace
  rw [hout, hout', hplace.2]

/-- What is called like a layout is not at the place of an output. -/
theorem ne_ofPath_outputFor (hnamed : t.WellNamed) (hroot : t.isDirectory root = true)
    (h : layout ∈ t.layouts root) (hlast : p.names.getLast? = some name)
    (hname : Path.isLayout name = true) (out : String) :
    p ≠ Place.ofPath (Path.outputFor root out layout) := by
  obtain ⟨names, base, hbase, -, -, hof⟩ := exists_ofPath_outputFor hnamed hroot h out
  intro hp
  rw [hp, hof, ← List.append_assoc, List.getLast?_concat] at hlast
  obtain rfl := Option.some.inj hlast
  rw [Path.isLayout_fileFor hbase] at hname
  cases hname

theorem ofPath_ne_outputFor (hnamed : t.WellNamed) (hroot : t.isDirectory root = true)
    (h : layout ∈ t.layouts root) (hother : other ∈ t.layouts root) (out : String) :
    Place.ofPath layout ≠ Place.ofPath (Path.outputFor root out other) := by
  obtain ⟨names, base, hbase, hof, -, -⟩ := exists_ofPath_outputFor hnamed hroot h out
  refine ne_ofPath_outputFor hnamed hroot hother ?_ (Path.isLayout_concat hbase) out
  rw [hof, ← List.append_assoc, List.getLast?_concat]

theorem exists_read_of_mem_layouts (hroot : t.isDirectory root = true)
    (h : layout ∈ t.layouts root) (htext : t.read layout ≠ .error .notText) :
    ∃ source, t.read layout = .ok source := by
  rw [layouts_eq hroot, List.mem_filter, Bool.and_eq_true] at h
  obtain ⟨hfind, content, hget⟩ := isFile_iff.mp h.2.1
  cases content with
  | none => exact absurd (by simp only [read, hfind, hget]) htext
  | some source => exact ⟨source, read_eq_ok_iff.mpr ⟨hfind, hget⟩⟩

end FileTree

-- ---------------------------------------------------------------------------
-- A whole batch
-- ---------------------------------------------------------------------------

namespace Command

def isRejected (limits : Limits) (files : FileTree) (layout : String) : Bool :=
  match files.read layout with
  | .ok source => !(Document.read limits source).isOk
  | .error _ => false

theorem isRejected_eq (h : files.read layout = .ok source) (options : Options) :
    isRejected options.limits files layout = (batchConversion options layout source).isFailure := by
  simp only [isRejected, h]
  cases hread : Document.read options.limits source with
  | ok d =>
    rw [← batchOptions_limits options layout] at hread
    rw [batchConversion, Conversion.isFailure_of_ok hread]
    rfl
  | error error =>
    rw [batchConversion_of_error hread, Conversion.isFailure_ofError]
    rfl

structure Converted (options : Options) (package : Option String) (root out : String) (s : Session)
    (result : Except Fault Unit) (files : FileTree) : Prop where
  /-- Nothing but outputs is different, and directories where nothing was. -/
  changed : ∀ p, files.get? p ≠ s.files.get? p →
    s.files.get? p = none ∧ files.get? p = some .directory ∨
      ∃ layout ∈ s.files.layouts root, files.find (Path.outputFor root out layout) = .ok p
  /-- An output holds the conversion of the last layout that goes there, as it was before. -/
  output : ∀ layout ∈ s.files.layouts root, ∃ last ∈ s.files.layouts root,
    Path.outputFor root out last = Path.outputFor root out layout ∧
    (∀ other ∈ s.files.layouts root,
      Path.outputFor root out other = Path.outputFor root out layout →
        FileTree.namesLe (Path.components other) (Path.components last) = true) ∧
    ∃ source, s.files.read last = .ok source ∧
      files.read (Path.outputFor root out layout) =
        .ok ((batchConversion options last source).withPackage package)
  /-- Files that are called like layouts stay as they were. -/
  unchanged : ∀ p name content, p.names.getLast? = some name → Path.isLayout name = true →
    (files.get? p = some (.file content) ↔ s.files.get? p = some (.file content))
  /-- A layout that is rejected gives a stub when its turn comes. -/
  stub : ∀ before layout rest source error, s.files.layouts root = before ++ layout :: rest →
    s.files.read layout = .ok source → Document.read options.limits source = .error error →
    ∃ rejected next, (convertEach options package root out (before ++ [layout])).run.run s =
        (.ok rejected, next) ∧
      next.files.read (Path.outputFor root out layout) =
        .ok ((Conversion.ofError error (Name.functionFor (Path.stem layout))).withPackage package)
  /-- The batch fails if and only if a layout is rejected, and says how many are. -/
  failed : (∃ fault, result = .error fault) ↔
    ∃ layout ∈ s.files.layouts root, isRejected options.limits s.files layout = true
  message : ∀ fault, result = .error fault → fault.message =
    toString ((s.files.layouts root).countP (isRejected options.limits s.files)) ++
      " layout(s) failed to convert"

theorem run_convertDirectory (settings : Settings) (hsome : s.files.layouts root ≠ [])
    (h : (convertEach settings.options package root out (s.files.layouts root)).run.run s =
      (.ok rejected, mid)) :
    ∃ next, (convertDirectory settings package root out).run.run s =
        (if rejected.isEmpty then .ok () else .error (.someRejected rejected.length), next) ∧
      next.files = mid.files ∧ mid.messages <+: next.messages ∧
      next.output = mid.output ++ [.text ("   Converted " ++
          toString ((s.files.layouts root).length - rejected.length) ++ " layout(s) into " ++ out ++
          " in "), .elapsed, .text "s\n"] := by
  rw [convertDirectory, run_bind_of_ok (run_layouts hsome), run_bind_of_ok h]
  cases rejected with
  | nil => exact ⟨_, rfl, rfl, List.prefix_refl _, rfl⟩
  | cons layout rejected => exact ⟨_, rfl, rfl, List.prefix_append _ _, rfl⟩

theorem exists_last {P : α → Prop} {l : List α} (h : a ∈ l) (ha : P a) :
    ∃ before last after, l = before ++ last :: after ∧ P last ∧ ∀ b ∈ after, ¬P b := by
  induction l generalizing a with
  | nil => cases h
  | cons first l ih =>
    by_cases hlater : ∃ b ∈ l, P b
    · obtain ⟨b, hb, hP⟩ := hlater
      obtain ⟨before, last, after, rfl, hlast⟩ := ih hb hP
      exact ⟨first :: before, last, after, rfl, hlast⟩
    · have hfirst : P first := by
        rcases List.mem_cons.mp h with rfl | hmem
        · exact ha
        · exact absurd ⟨a, hmem, ha⟩ hlater
      exact ⟨[], first, l, rfl, hfirst, fun b hb hP => hlater ⟨b, hb, hP⟩⟩

theorem namesLe_self (names : List String) : FileTree.namesLe names names = true := by
  simpa using FileTree.namesLe_total names names

section
variable {t files : FileTree} {root : String}

theorem changed_of_savesAll
    (hsaves : t.SavesAll (saved options package root out source (t.layouts root)) files)
    (hp : files.get? p ≠ t.get? p) :
    t.get? p = none ∧ files.get? p = some .directory ∨
      ∃ layout ∈ t.layouts root, files.find (Path.outputFor root out layout) = .ok p := by
  by_cases hplace : ∃ layout ∈ t.layouts root, p = Place.ofPath (Path.outputFor root out layout)
  · obtain ⟨layout, hlayout, hp⟩ := hplace
    rw [hp]
    exact .inr ⟨layout, hlayout, hsaves.find (mem_saved hlayout)⟩
  · have hkeeps : t.Keeps files p := by
      refine hsaves.keeps fun first hfirst hp => hplace ?_
      obtain ⟨layout, hlayout, hpath⟩ := exists_of_mem_saved hfirst
      exact ⟨layout, hlayout, hpath ▸ hp⟩
    exact .inl (hkeeps.resolve_left hp)

theorem unchanged_of_savesAll (hnamed : t.WellNamed) (hroot : t.isDirectory root = true)
    (hsaves : t.SavesAll (saved options package root out source (t.layouts root)) files)
    (hname : p.names.getLast? = some name) (hlayout : Path.isLayout name = true) :
    files.get? p = some (.file content) ↔ t.get? p = some (.file content) := by
  refine (hsaves.keeps fun first hfirst => ?_).file_iff
  obtain ⟨layout, hmem, hpath⟩ := exists_of_mem_saved hfirst
  rw [hpath]
  exact FileTree.ne_ofPath_outputFor hnamed hroot hmem hname hlayout out

theorem output_of_savesAll (hnamed : t.WellNamed) (hroot : t.isDirectory root = true)
    (hsaves : t.SavesAll (saved options package root out source (t.layouts root)) files)
    (hlayout : layout ∈ t.layouts root) :
    ∃ last ∈ t.layouts root, Path.outputFor root out last = Path.outputFor root out layout ∧
      (∀ other ∈ t.layouts root, Path.outputFor root out other = Path.outputFor root out layout →
        FileTree.namesLe (Path.components other) (Path.components last) = true) ∧
      files.read (Path.outputFor root out layout) =
        .ok ((batchConversion options last (source last)).withPackage package) := by
  obtain ⟨before, last, after, hfound, hsame, hlater⟩ :=
    exists_last (P := fun other => Path.outputFor root out other = Path.outputFor root out layout)
      hlayout rfl
  have hsorted := FileTree.pairwise_layouts hnamed hroot
  have hlast : last ∈ t.layouts root := by simp [hfound]
  refine ⟨last, hlast, hsame, fun other hother hout => ?_, ?_⟩
  · rw [hfound] at hother hsorted
    rcases List.mem_append.mp hother with hbefore | hother
    · exact (List.pairwise_append.mp hsorted).2.2 other hbefore last List.mem_cons_self
    · rcases List.mem_cons.mp hother with rfl | hafter
      · exact namesLe_self _
      · exact absurd hout (hlater other hafter)
  · have hafter : ∀ other ∈ after, other ∈ t.layouts root := fun other hother => by
      simp [hfound, hother]
    rw [hfound, saved_append_cons] at hsaves
    rw [← hsame]
    refine hsaves.read_of_last fun first hfirst hplace => ?_
    obtain ⟨other, hother, hpath⟩ := exists_of_mem_saved hfirst
    rw [hpath] at hplace
    refine hlater other hother (Eq.trans ?_ hsame)
    exact (FileTree.outputFor_eq_of_ofPath_eq hnamed hroot hlast (hafter other hother) hplace).symm

end

/-- After its turn each layout has its output, whatever comes later. -/
theorem read_after_turn {found : List String} {source : String → String}
    (hread : ∀ layout ∈ found, s.files.read layout = .ok (source layout))
    (hapart : ∀ layout ∈ found, ∀ other ∈ found,
      Place.ofPath layout ≠ Place.ofPath (Path.outputFor root out other))
    (hdone : (convertEach options package root out found).run.run s = (.ok rejected, last))
    (hfound : found = before ++ layout :: rest) :
    ∃ rejected next, (convertEach options package root out (before ++ [layout])).run.run s =
        (.ok rejected, next) ∧
      next.files.read (Path.outputFor root out layout) =
        .ok ((batchConversion options layout (source layout)).withPackage package) := by
  have hsplit : found = (before ++ [layout]) ++ rest := by simp [hfound]
  have hmem : ∀ other ∈ before ++ [layout], other ∈ found := fun other hother =>
    hsplit ▸ List.mem_append_left rest hother
  have hothers : ∀ other ∈ before ++ [layout], ∀ another ∈ before ++ [layout],
      Place.ofPath other ≠ Place.ofPath (Path.outputFor root out another) :=
    fun other hother another hanother =>
      hapart other (hmem other hother) another (hmem another hanother)
  rcases writes_convertEach options package root out source (before ++ [layout]) s
      (fun other hother => hread other (hmem other hother)) hothers with
    ⟨fault, next, hfailed, -⟩ | ⟨rejected, next, hrun, -, hsaves, -⟩
  · rw [hsplit, convertEach_append, run_bind_of_error hfailed] at hdone
    cases hdone
  · rw [saved_append_cons] at hsaves
    exact ⟨rejected, next, hrun, hsaves.read_of_last fun other hother => nomatch hother⟩

/-- A batch whose files can be written saves the code of each layout as it was, and fails with the
number of those that were rejected. -/
theorem savesAll_of_run {settings : Settings} (hnamed : s.files.WellNamed)
    (hroot : s.files.isDirectory root = true) (hsome : s.files.layouts root ≠ [])
    (htext : ∀ layout ∈ s.files.layouts root, s.files.read layout ≠ .error .notText)
    (hrun : (convertDirectory settings package root out).run.run s = (result, next))
    (hsaved : ∀ fault, result = .error fault → fault.isUnsaved = false) :
    ∃ (source : String → String) (rejected : List String) (mid : Session),
      (∀ layout ∈ s.files.layouts root, s.files.read layout = .ok (source layout)) ∧
      (convertEach settings.options package root out (s.files.layouts root)).run.run s =
        (.ok rejected, mid) ∧
      s.files.SavesAll (saved settings.options package root out source (s.files.layouts root))
        next.files ∧
      rejected = (s.files.layouts root).filter (isRejected settings.options.limits s.files) ∧
      result = if rejected.isEmpty then .ok () else .error (.someRejected rejected.length) := by
  let source : String → String := fun layout => (s.files.read layout).toOption.getD ""
  have hread : ∀ layout ∈ s.files.layouts root, s.files.read layout = .ok (source layout) := by
    intro layout hlayout
    obtain ⟨text, hlayoutText⟩ :=
      FileTree.exists_read_of_mem_layouts hroot hlayout (htext layout hlayout)
    simp [source, hlayoutText, Except.toOption]
  have hapart : ∀ layout ∈ s.files.layouts root, ∀ other ∈ s.files.layouts root,
      Place.ofPath layout ≠ Place.ofPath (Path.outputFor root out other) :=
    fun layout hlayout other hother =>
      FileTree.ofPath_ne_outputFor hnamed hroot hlayout hother out
  rcases writes_convertEach settings.options package root out source _ s hread hapart with
    ⟨fault, mid, hfailed, hfault⟩ | ⟨rejected, mid, hdone, hrejected, hsaves, -⟩
  · rw [convertDirectory, run_bind_of_ok (run_layouts hsome), run_bind_of_error hfailed] at hrun
    obtain ⟨rfl, rfl⟩ := Prod.mk.inj hrun
    cases hfault.symm.trans (hsaved fault rfl)
  · obtain ⟨last, hlast, hfiles, -⟩ := run_convertDirectory settings hsome hdone
    obtain ⟨rfl, rfl⟩ := Prod.mk.inj (hlast.symm.trans hrun)
    refine ⟨source, rejected, mid, hread, hdone, hfiles ▸ hsaves, ?_, rfl⟩
    exact hrejected.trans (List.filter_congr fun layout hlayout =>
      (isRejected_eq (hread layout hlayout) _).symm)

/-- Whatever cannot be parsed, a batch whose files can be written leaves the conversions of the
layouts as they were. -/
theorem converted_of_run (settings : Settings) (package : Option String) (root out : String)
    (s : Session) (hnamed : s.files.WellNamed) (hroot : s.files.isDirectory root = true)
    (hsome : s.files.layouts root ≠ [])
    (htext : ∀ layout ∈ s.files.layouts root, s.files.read layout ≠ .error .notText)
    (hrun : (convertDirectory settings package root out).run.run s = (result, next))
    (hsaved : ∀ fault, result = .error fault → fault.isUnsaved = false) :
    Converted settings.options package root out s result next.files := by
  obtain ⟨source, rejected, mid, hread, hdone, hsaves, hcount, rfl⟩ :=
    savesAll_of_run hnamed hroot hsome htext hrun hsaved
  constructor
  case changed => exact fun p hp => changed_of_savesAll hsaves hp
  case output =>
    intro layout hlayout
    obtain ⟨last, hmem, hsame, hmax, hheld⟩ := output_of_savesAll hnamed hroot hsaves hlayout
    exact ⟨last, hmem, hsame, hmax, source last, hread last hmem, hheld⟩
  case unchanged =>
    intro p name content hname hlayout
    exact unchanged_of_savesAll hnamed hroot hsaves hname hlayout
  case stub =>
    intro before layout rest text error hfound hlayoutText herror
    have hlayout : layout ∈ s.files.layouts root := by simp [hfound]
    obtain rfl := Except.ok.inj ((hread layout hlayout).symm.trans hlayoutText)
    rw [← batchConversion_of_error herror]
    refine read_after_turn hread (fun layout hlayout other hother => ?_) hdone hfound
    exact FileTree.ofPath_ne_outputFor hnamed hroot hlayout hother out
  case failed =>
    constructor
    · rintro ⟨fault, hfault⟩
      rcases rejected with - | ⟨layout, others⟩
      · cases hfault
      · have hmem : layout ∈ layout :: others := List.mem_cons_self
        rw [hcount, List.mem_filter] at hmem
        exact ⟨layout, hmem⟩
    · rintro ⟨layout, hlayout⟩
      have hmem : layout ∈ rejected := hcount ▸ List.mem_filter.mpr hlayout
      have hsome : rejected.isEmpty = false := by simpa using List.ne_nil_of_mem hmem
      exact ⟨_, by rw [hsome]; rfl⟩
  case message =>
    intro fault hfault
    rw [List.countP_eq_length_filter, ← hcount]
    split at hfault
    · cases hfault
    · obtain rfl := Except.error.inj hfault
      rfl

/-- Two layouts that share an output, which goes to their own directory. -/
def overlap : Session where
  files := ⟨[(⟨.working 0, ["res"]⟩, .directory),
    (⟨.working 0, ["res", "a-b.xml"]⟩, .file (some "<View/>")),
    (⟨.working 0, ["res", "a_b.xml"]⟩, .file (some "<a>"))]⟩

theorem layouts_overlap : overlap.files.layouts "res" = ["res/a-b.xml", "res/a_b.xml"] := by
  have hplace : Place.ofPath "res" = ⟨.working 0, ["res"]⟩ := by decide
  have hbelow : overlap.files.below ⟨.working 0, ["res"]⟩ = [["a-b.xml"], ["a_b.xml"]] :=
    List.mergeSort_of_pairwise (by decide)
  rw [FileTree.layouts_eq (by decide), hplace, hbelow]
  decide

theorem wellNamed_overlap : overlap.files.WellNamed := by
  have hres : Path.IsName "res" := ⟨by decide, by decide, by decide, by decide⟩
  have hfirst : Path.IsName "a-b.xml" := ⟨by decide, by decide, by decide, by decide⟩
  have hsecond : Path.IsName "a_b.xml" := ⟨by decide, by decide, by decide, by decide⟩
  simp [FileTree.WellNamed, overlap, hres, hfirst, hsecond]

theorem converted_overlap :
    overlap.files.layouts "res" = ["res/a-b.xml", "res/a_b.xml"] ∧
      ∃ next, (convertDirectory {} none "res" "res").run.run overlap =
          (.error (.someRejected 1), next) ∧
        Converted ({} : Settings).options none "res" "res" overlap (.error (.someRejected 1))
          next.files := by
  have hresult : ((convertEach ({} : Settings).options none "res" "res"
      ["res/a-b.xml", "res/a_b.xml"]).run.run overlap).1 = .ok ["res/a_b.xml"] := by
    decide +kernel
  rw [← layouts_overlap] at hresult
  have hsome : overlap.files.layouts "res" ≠ [] := by simp [layouts_overlap]
  have htext : ∀ layout ∈ overlap.files.layouts "res",
      overlap.files.read layout ≠ .error .notText := by
    rw [layouts_overlap]
    decide
  obtain ⟨next, hrun, -⟩ := run_convertDirectory {} hsome (Prod.ext hresult rfl)
  refine ⟨layouts_overlap, next, hrun, ?_⟩
  refine converted_of_run {} none "res" "res" overlap wellNamed_overlap (by decide) hsome htext
    hrun ?_
  rintro fault ⟨⟩
  rfl

end Command

end LayoutCompose
