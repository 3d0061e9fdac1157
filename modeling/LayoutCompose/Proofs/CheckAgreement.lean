import LayoutCompose.Command.Check
import LayoutCompose.Proofs.BatchConversion
import LayoutCompose.Proofs.JsonText

/-!
# Checking and converting agree

Checking converts each layout under the one name of the settings and keeps the diagnostics only;
converting gives each function a name of its own and writes what it has. The name goes into the
code alone, and what is written is never a layout, so that both meet the same diagnostics, print
the same lines about them and fail alike.
-/

namespace LayoutCompose

-- ---------------------------------------------------------------------------
-- Names of functions
-- ---------------------------------------------------------------------------

namespace Conversion

/-- The diagnostics of a conversion do not depend on the name of the function. -/
theorem diagnostics_of_function (options : Options) (name source : String) :
    (ofSource { options with function := name } source).warnings =
        (ofSource options source).warnings ∧
      (ofSource { options with function := name } source).suggestions =
        (ofSource options source).suggestions := by
  cases hread : Document.read options.limits source with
  | error error => simp only [ofSource, tryOfSource, hread, ofError, and_self]
  | ok d =>
    obtain ⟨body, hbody⟩ := Document.exists_code hread 1
    simp only [ofSource, tryOfSource, hread, ofElement, hbody, and_self]

theorem isFailure_of_function (options : Options) (name source : String) :
    (ofSource { options with function := name } source).isFailure =
      (ofSource options source).isFailure := by
  rw [isFailure, isFailure, (diagnostics_of_function options name source).1]

end Conversion

namespace Command

theorem FileReport.ofConversion_function (options : Options) (name source layout : String) :
    ofConversion layout (.ofSource { options with function := name } source) =
      ofConversion layout (.ofSource options source) := by
  obtain ⟨hwarnings, hsuggestions⟩ := Conversion.diagnostics_of_function options name source
  rw [ofConversion, ofConversion, Conversion.isFailure_of_function, hwarnings, hsuggestions]

theorem diagnosticLines_of_function (options : Options) (name source layout : String) :
    diagnosticLines layout (.ofSource { options with function := name } source) =
      diagnosticLines layout (.ofSource options source) := by
  obtain ⟨hwarnings, hsuggestions⟩ := Conversion.diagnostics_of_function options name source
  rw [diagnosticLines, diagnosticLines, hwarnings, hsuggestions]

-- ---------------------------------------------------------------------------
-- What is shown
-- ---------------------------------------------------------------------------

def kindWords : Diagnostic.Kind → String × String
  | .malformed => ("syntax", "error:")
  | .limit => ("limit", "error:")
  | .unsupported => ("unsupported", "warning:")
  | .deprecated => ("deprecated", "warning:")
  | .performance => ("performance", "tip:")
  | .bestPractice => ("best_practice", "suggestion:")
  | .migration => ("migration", "suggestion:")

def lineOf (d : Diagnostic) : String :=
  "  " ++ (kindWords d.kind).2 ++ " " ++ d.message ++ d.remedy.elim "" (" (" ++ · ++ ")")

def valueOf (d : Diagnostic) : JsonValue :=
  .object ([("kind", .string (kindWords d.kind).1), ("message", .string d.message)] ++
    (d.remedy.map fun remedy => ("remediation", .string remedy)).toList)

/-- The lines on a layout: none if there is nothing to say, else its path and a line for each
warning and for each suggestion. -/
def linesOf (layout : String) (c : Conversion) : List String :=
  if c.warnings ++ c.suggestions = [] then []
  else layout :: (c.warnings ++ c.suggestions).map lineOf

/-- What a printed result says about some layouts and their conversions: how many there are, with
how many warnings and suggestions, or an object for each. -/
def Shows (found : List (String × Conversion)) (text : String) : Format → Prop
  | .text => text = "   Checked " ++ toString found.length ++ " file(s): " ++
      toString (found.flatMap (·.2.warnings)).length ++ " warning(s), " ++
      toString (found.flatMap (·.2.suggestions)).length ++ " suggestion(s)\n"
  | .json => JsonValue.HasText (.list (found.map fun (layout, c) => .object
      [("file", .string layout), ("success", .bool !c.isFailure),
        ("warnings", .list (c.warnings.map valueOf)),
        ("suggestions", .list (c.suggestions.map valueOf))])) text.toList

theorem line_eq (d : Diagnostic) : "  " ++ label d.kind ++ " " ++ d.text = lineOf d := by
  have hlabel : label d.kind = (kindWords d.kind).2 := by cases d.kind <;> rfl
  rw [lineOf, hlabel, Diagnostic.text]
  cases d.remedy with
  | none => rw [Option.elim_none, String.append_empty]
  | some remedy => simp only [Option.elim_some, String.append_assoc]

theorem diagnosticLines_eq (layout : String) (c : Conversion) :
    diagnosticLines layout c = linesOf layout c := by
  simp only [diagnosticLines, linesOf, line_eq, List.isEmpty_iff, List.map_eq_nil_iff]

theorem diagnosticJson_eq : diagnosticJson = valueOf := by
  funext d
  have hname : d.kind.name = (kindWords d.kind).1 := by cases d.kind <;> rfl
  rw [diagnosticJson, valueOf, hname]

theorem shows_rendered (format : Format) (found : List (String × Conversion)) :
    Shows found (rendered format (found.map fun p => .ofConversion p.1 p.2)) format := by
  cases format with
  | text => simp [Shows, rendered, summary, FileReport.ofConversion, List.flatMap_map]
  | json =>
    have hspaces : ∀ c ∈ [] ++ ['\n'], c ∈ JsonValue.spaces := by simp [JsonValue.spaces]
    have htext := (JsonValue.hasText_layOut 0 (.list ((found.map fun p =>
      FileReport.ofConversion p.1 p.2).map FileReport.toJson))).spaced hspaces
    simpa [Shows, rendered, Function.comp_def, FileReport.toJson, FileReport.ofConversion,
      diagnosticJson_eq, String.toList_append] using htext

-- ---------------------------------------------------------------------------
-- Targets
-- ---------------------------------------------------------------------------

def layoutsAt (files : FileTree) (path : String) : List String :=
  if files.isDirectory path then files.layouts path else [path]

def IsTarget (files : FileTree) (path : String) : Prop :=
  files.isDirectory path = true ∨ files.isPresent path = true ∧ Path.isLayout path = true

theorem run_target_directory (h : s.files.isDirectory path = true) :
    (target path).run.run s = (.ok (.directory path), s) := by
  rw [target, run_bind_of_ok (run_getFiles s), if_pos h]
  rfl

theorem run_target_file (h : IsTarget s.files path) (hfile : s.files.isDirectory path = false) :
    (target path).run.run s = (.ok (.file path), s) := by
  obtain ⟨hpresent, hlayout⟩ := h.resolve_left (by simp [hfile])
  rw [target, run_bind_of_ok (run_getFiles s)]
  simp only [hfile, hpresent, hlayout]
  rfl

-- ---------------------------------------------------------------------------
-- Checking
-- ---------------------------------------------------------------------------

def reportsOn (options : Options) (source : String → String) (found : List String) :
    List FileReport :=
  found.map fun layout => .ofConversion layout (.ofSource options (source layout))

def failures (options : Options) (source : String → String) (found : List String) : Nat :=
  found.countP fun layout => (Conversion.ofSource options (source layout)).isFailure

theorem length_failed (options : Options) (source : String → String) (found : List String) :
    ((reportsOn options source found).filter (!·.success)).length =
      failures options source found := by
  rw [← List.countP_eq_length_filter, reportsOn, List.countP_map, failures]
  congr 1
  funext layout
  exact Bool.not_not _

theorem run_checkEach (options : Options) (source : String → String) (found : List String)
    (s : Session) (hread : ∀ layout ∈ found, s.files.read layout = .ok (source layout)) :
    (checkEach options found).run.run s = (.ok (reportsOn options source found),
      { s with messages := s.messages ++ found.flatMap fun layout =>
        diagnosticLines layout (.ofSource options (source layout)) }) := by
  induction found generalizing s with
  | nil =>
    rw [List.flatMap_nil, List.append_nil]
    rfl
  | cons layout rest ih =>
    obtain ⟨hlayout, hrest⟩ := List.forall_mem_cons.mp hread
    let lines := diagnosticLines layout (.ofSource options (source layout))
    rw [checkEach, run_bind_of_ok (run_convertLayout hlayout _),
      run_bind_of_ok (run_printLines _ s),
      run_bind_of_ok (ih { s with messages := s.messages ++ lines } hrest), List.flatMap_cons,
      ← List.append_assoc]
    rfl

theorem run_layoutsOf (htarget : IsTarget s.files path) (hsome : layoutsAt s.files path ≠ []) :
    (target path >>= layoutsOf).run.run s = (.ok (layoutsAt s.files path), s) := by
  cases hdirectory : s.files.isDirectory path with
  | true =>
    rw [layoutsAt, if_pos hdirectory] at hsome ⊢
    rw [run_bind_of_ok (run_target_directory hdirectory)]
    exact run_layouts hsome
  | false =>
    rw [layoutsAt, if_neg (by simp [hdirectory])]
    rw [run_bind_of_ok (run_target_file htarget hdirectory)]
    rfl

theorem run_check (settings : Settings) (format : Format) (htarget : IsTarget s.files path)
    (hsome : layoutsAt s.files path ≠ [])
    (hread : ∀ layout ∈ layoutsAt s.files path, s.files.read layout = .ok (source layout)) :
    (check settings path format).run.run s =
      (if failures settings.options source (layoutsAt s.files path) = 0 then .ok ()
        else .error (.someMalformed (failures settings.options source (layoutsAt s.files path))),
        { s with
          messages := s.messages ++ (layoutsAt s.files path).flatMap fun layout =>
            diagnosticLines layout (.ofSource settings.options (source layout))
          output := s.output ++ [.text (rendered format
            (reportsOn settings.options source (layoutsAt s.files path)))] }) := by
  rw [check, ← bind_assoc, run_bind_of_ok (run_layoutsOf htarget hsome), reportEach,
    run_bind_of_ok (run_checkEach settings.options source _ s hread)]
  simp only [length_failed]
  by_cases hnone : failures settings.options source (layoutsAt s.files path) = 0
  · rw [if_pos hnone, if_neg (by omega)]
    rfl
  · rw [if_neg hnone, if_pos (by omega)]
    rfl

-- ---------------------------------------------------------------------------
-- Converting
-- ---------------------------------------------------------------------------

/-- The arguments pass their checks: the package is left out or well formed, and a name is
well formed and not for a directory. -/
structure AcceptedArgs (settings : Settings) (args : ConvertArgs) (files : FileTree) : Prop where
  package : args.noPackage = true ∨
    Name.checkPackage (args.package.getD settings.package) = .ok ()
  name : ∀ name, args.name = some name →
    files.isDirectory args.path = false ∧ Name.checkFunction name = .ok ()

section
variable {settings : Settings} {args : ConvertArgs} {s : Session}

theorem run_packageFor (h : AcceptedArgs settings args files) :
    (packageFor settings args).run.run s = (.ok (packageOf settings args), s) := by
  rw [packageFor, packageOf]
  cases hno : args.noPackage with
  | true => rfl
  | false =>
    have hcheck := h.package.resolve_left (by simp [hno])
    simp only [Bool.false_eq_true, if_false, Option.forM, hcheck]
    rfl

theorem writes_deliver (settings : Settings) (args : ConvertArgs) (path code : String)
    (s : Session) :
    Writes (deliver settings args path code) s fun _ next => next.messages = s.messages := by
  unfold deliver
  cases args.out with
  | none => exact .inr ⟨(), _, rfl, rfl⟩
  | some out => exact (writes_write _ _ s).bind fun _ next hnext => .inr ⟨(), _, rfl, hnext.2⟩

theorem run_convertFile (haccepted : AcceptedArgs settings args files)
    (hread : s.files.read path = .ok text) (package : Option String)
    (hrun : (convertFile settings args package path).run.run s = (result, next))
    (hsaved : ∀ fault, result = .error fault → fault.isUnsaved = false) :
    result = (if (Conversion.ofSource (fileOptions settings args) text).isFailure
      then .error (.rejected path) else .ok ()) ∧
    next.messages =
      s.messages ++ diagnosticLines path (.ofSource (fileOptions settings args) text) := by
  have hname : (args.name.forM fun name => liftName (Name.checkFunction name)).run.run s =
      (.ok (), s) := by
    cases hargs : args.name with
    | none => rfl
    | some name =>
      rw [Option.forM, (haccepted.name name hargs).2]
      rfl
  rw [convertFile, run_bind_of_ok hname, run_bind_of_ok (run_convertLayout hread _),
    run_bind_of_ok (run_printLines _ s)] at hrun
  rcases writes_deliver settings args path _ _ with
    ⟨fault, last, hfailed, hfault⟩ | ⟨_, last, hdone, hmessages⟩
  · rw [run_bind_of_error hfailed] at hrun
    obtain ⟨rfl, -⟩ := Prod.mk.inj hrun
    cases hfault.symm.trans (hsaved fault rfl)
  · rw [run_bind_of_ok hdone] at hrun
    cases hfailure : (Conversion.ofSource (fileOptions settings args) text).isFailure <;>
      rw [hfailure] at hrun <;> obtain ⟨rfl, rfl⟩ := Prod.mk.inj hrun <;> exact ⟨rfl, hmessages⟩

/-- The conversion that converting makes of a layout: of the one file, or when its turn comes
after other layouts of the directory have been written. -/
inductive Converts (settings : Settings) (args : ConvertArgs) (s : Session) :
    String → Conversion → Prop
  | file : s.files.isDirectory args.path = false →
      (convertLayout (fileOptions settings args) args.path).run.run s = (.ok c, s) →
      Converts settings args s args.path c
  | turn : s.files.isDirectory args.path = true →
      s.files.layouts args.path = before ++ layout :: rest →
      (convertEach settings.options (packageOf settings args) args.path
        (args.out.getD defaultOut) before).run.run s = (.ok rejected, next) →
      (convertLayout (batchOptions settings.options layout) layout).run.run next = (.ok c, next) →
      Converts settings args s layout c

theorem exists_turn {found : List String} {source : String → String}
    (hread : ∀ layout ∈ found, s.files.read layout = .ok (source layout))
    (hapart : ∀ layout ∈ found, ∀ other ∈ found,
      Place.ofPath layout ≠ Place.ofPath (Path.outputFor root out other))
    (hdone : (convertEach options package root out found).run.run s = (.ok rejected, last))
    (hfound : found = before ++ layout :: rest) :
    ∃ rejected next, (convertEach options package root out before).run.run s =
        (.ok rejected, next) ∧
      (convertLayout (batchOptions options layout) layout).run.run next =
        (.ok (batchConversion options layout (source layout)), next) := by
  have hmem : ∀ other ∈ before, other ∈ found := fun other hother => by simp [hfound, hother]
  have hlayout : layout ∈ found := by simp [hfound]
  rcases writes_convertEach options package root out source before s
      (fun other hother => hread other (hmem other hother))
      (fun other hother another hanother =>
        hapart other (hmem other hother) another (hmem another hanother)) with
    ⟨fault, next, hfailed, -⟩ | ⟨rejected, next, hrun, -, hsaves, -⟩
  · rw [hfound, convertEach_append, run_bind_of_error hfailed] at hdone
    cases hdone
  · refine ⟨rejected, next, hrun, run_convertLayout ?_ _⟩
    refine hsaves.read_of_ne (fun first hfirst => ?_) (hread layout hlayout)
    obtain ⟨other, hother, hpath⟩ := exists_of_mem_saved hfirst
    rw [hpath]
    exact hapart layout hlayout other (hmem other hother)

end

-- ---------------------------------------------------------------------------
-- Agreement
-- ---------------------------------------------------------------------------

structure Agree (settings : Settings) (args : ConvertArgs) (format : Format) (s : Session)
    (checked converted : Except Fault Unit × Session) : Prop where
  /-- Both succeed, or both fail. -/
  ok_iff : checked.1 = .ok () ↔ converted.1 = .ok ()
  /-- What is printed says, layout by layout, what converting finds; converting prints the same
  lines first. -/
  reports : layoutsAt s.files args.path ≠ [] → ∃ found : List (String × Conversion),
    found.map (·.1) = layoutsAt s.files args.path ∧
    (∀ p ∈ found, Converts settings args s p.1 p.2) ∧
    checked.2.messages = s.messages ++ found.flatMap (fun p => linesOf p.1 p.2) ∧
    checked.2.messages <+: converted.2.messages ∧
    ∃ text, checked.2.output = s.output ++ [.text text] ∧ Shows found text format
  /-- In a directory both count the layouts that are rejected. -/
  count : s.files.isDirectory args.path = true → s.files.layouts args.path ≠ [] →
    ∃ n, n = (s.files.layouts args.path).countP (isRejected settings.options.limits s.files) ∧
      checked.1 = (if n = 0 then .ok () else .error (.someMalformed n)) ∧
      converted.1 = (if n = 0 then .ok () else .error (.someRejected n))
  /-- Checking changes no file. -/
  unchanged : checked.2.files = s.files

def textAt (files : FileTree) (layout : String) : String := (files.read layout).toOption.getD ""

theorem read_eq_textAt {files : FileTree} (h : ∃ text, files.read layout = .ok text) :
    files.read layout = .ok (textAt files layout) := by
  obtain ⟨text, hread⟩ := h
  simp [textAt, hread, Except.toOption]

theorem failures_eq (options : Options) {files : FileTree} {found : List String}
    (hread : ∀ layout ∈ found, files.read layout = .ok (textAt files layout)) :
    failures options (textAt files) found = found.countP (isRejected options.limits files) := by
  refine List.countP_congr fun layout hlayout => ?_
  have hsame := Conversion.isFailure_of_function options (Name.functionFor (Path.stem layout))
    (textAt files layout)
  rw [isRejected_eq (hread layout hlayout), ← hsame]
  rfl

section
variable {settings : Settings} {args : ConvertArgs} {s : Session}

def conversionsOn (options : Options) (name source : String → String) (found : List String) :
    List (String × Conversion) :=
  found.map fun layout =>
    (layout, .ofSource { options with function := name layout } (source layout))

theorem reports_conversionsOn (options : Options) (name source : String → String)
    (found : List String) :
    (conversionsOn options name source found).map (fun p => FileReport.ofConversion p.1 p.2) =
      reportsOn options source found := by
  simp only [conversionsOn, reportsOn, List.map_map, Function.comp_def,
    FileReport.ofConversion_function]

theorem lines_conversionsOn (options : Options) (name source : String → String)
    (found : List String) :
    (conversionsOn options name source found).flatMap (fun p => linesOf p.1 p.2) =
      found.flatMap fun layout => diagnosticLines layout (.ofSource options (source layout)) := by
  simp only [conversionsOn, List.flatMap_map, ← diagnosticLines_eq, diagnosticLines_of_function]

theorem lines_batch (options : Options) (source : String → String) (found : List String) :
    batchLines options source found =
      found.flatMap fun layout => diagnosticLines layout (.ofSource options (source layout)) := by
  simp only [batchLines, batchConversion, batchOptions, diagnosticLines_of_function]

/-- What checking prints is about the conversions that converting makes, if these are the same but
for the names of the functions. -/
theorem shows_of_converts (name : String → String) (format : Format)
    {found : List String} {checked converted : Session}
    (h : ∀ layout ∈ found, Converts settings args s layout
      (.ofSource { settings.options with function := name layout } (textAt s.files layout)))
    (hmessages : checked.messages = s.messages ++ found.flatMap fun layout =>
      diagnosticLines layout (.ofSource settings.options (textAt s.files layout)))
    (houtput : checked.output = s.output ++ [.text (rendered format
      (reportsOn settings.options (textAt s.files) found))])
    (hfirst : s.messages ++ (conversionsOn settings.options name (textAt s.files) found).flatMap
      (fun p => linesOf p.1 p.2) <+: converted.messages) :
    ∃ conversions : List (String × Conversion), conversions.map (·.1) = found ∧
      (∀ p ∈ conversions, Converts settings args s p.1 p.2) ∧
      checked.messages = s.messages ++ conversions.flatMap (fun p => linesOf p.1 p.2) ∧
      checked.messages <+: converted.messages ∧
      ∃ text, checked.output = s.output ++ [.text text] ∧ Shows conversions text format := by
  have hlines := hmessages.trans
    (congrArg (s.messages ++ ·) (lines_conversionsOn settings.options name _ found).symm)
  refine ⟨conversionsOn settings.options name (textAt s.files) found, ?_, ?_, hlines, ?_, _,
    houtput, ?_⟩
  · simp [conversionsOn, Function.comp_def]
  · exact List.forall_mem_map.mpr h
  · rwa [hlines]
  · rw [← reports_conversionsOn settings.options name]
    exact shows_rendered format _

theorem run_convert_directory (haccepted : AcceptedArgs settings args s.files)
    (hdirectory : s.files.isDirectory args.path = true) :
    (convert settings args).run.run s =
      (convertDirectory settings (packageOf settings args) args.path
        (args.out.getD defaultOut)).run.run s := by
  have hname : args.name = none := by
    refine Option.eq_none_iff_forall_ne_some.mpr fun name hname => ?_
    cases hdirectory.symm.trans (haccepted.name name hname).1
  rw [convert, run_bind_of_ok (run_packageFor haccepted),
    run_bind_of_ok (run_target_directory hdirectory), hname]
  rfl

theorem run_convert_file (haccepted : AcceptedArgs settings args s.files)
    (htarget : IsTarget s.files args.path) (hfile : s.files.isDirectory args.path = false) :
    (convert settings args).run.run s =
      (convertFile settings args (packageOf settings args) args.path).run.run s := by
  rw [convert, run_bind_of_ok (run_packageFor haccepted),
    run_bind_of_ok (run_target_file htarget hfile)]

theorem agree_of_empty (format : Format) (haccepted : AcceptedArgs settings args s.files)
    (hdirectory : s.files.isDirectory args.path = true)
    (hempty : s.files.layouts args.path = []) :
    Agree settings args format s ((check settings args.path format).run.run s)
      ((convert settings args).run.run s) := by
  have hnone : (layouts args.path).run.run s = (.error (.noLayouts args.path), s) := by
    rw [layouts, run_bind_of_ok (run_getFiles s), hempty]
    rfl
  have hlayouts : (target args.path >>= layoutsOf).run.run s =
      (.error (.noLayouts args.path), s) := by
    rw [run_bind_of_ok (run_target_directory hdirectory)]
    exact hnone
  rw [check, ← bind_assoc, run_bind_of_error hlayouts, run_convert_directory haccepted hdirectory,
    convertDirectory, run_bind_of_error hnone]
  have hat : layoutsAt s.files args.path = [] := (if_pos hdirectory).trans hempty
  exact ⟨by simp, fun h => absurd hat h, fun _ h => absurd hempty h, rfl⟩

theorem agree_of_file (format : Format) (haccepted : AcceptedArgs settings args s.files)
    (htarget : IsTarget s.files args.path) (hfile : s.files.isDirectory args.path = false)
    (hread : s.files.read args.path = .ok (textAt s.files args.path))
    (hrun : (convert settings args).run.run s = (result, next))
    (hsaved : ∀ fault, result = .error fault → fault.isUnsaved = false) :
    Agree settings args format s ((check settings args.path format).run.run s) (result, next) := by
  have hat : layoutsAt s.files args.path = [args.path] := if_neg (by simp [hfile])
  have hreads : ∀ layout ∈ layoutsAt s.files args.path,
      s.files.read layout = .ok (textAt s.files layout) := by
    rw [hat]
    exact List.forall_mem_singleton.mpr hread
  have hcheck := run_check settings format htarget (by simp [hat]) hreads
  rw [run_convert_file haccepted htarget hfile] at hrun
  obtain ⟨hresult, hmessages⟩ := run_convertFile haccepted hread _ hrun hsaved
  have hfailure := Conversion.isFailure_of_function settings.options
    (args.name.getD settings.options.function) (textAt s.files args.path)
  have hconverts : ∀ layout ∈ layoutsAt s.files args.path, Converts settings args s layout
      (.ofSource (fileOptions settings args) (textAt s.files layout)) := by
    rw [hat]
    exact List.forall_mem_singleton.mpr (.file hfile (run_convertLayout hread _))
  rw [hcheck]
  constructor
  case ok_iff =>
    rw [hresult, fileOptions, hfailure, hat]
    cases h : (Conversion.ofSource settings.options (textAt s.files args.path)).isFailure <;>
      simp [failures, h]
  case reports =>
    have hlines := diagnosticLines_of_function settings.options
      (args.name.getD settings.options.function) (textAt s.files args.path) args.path
    refine fun _ => shows_of_converts (fun _ => args.name.getD settings.options.function) format
      hconverts rfl rfl ?_
    rw [lines_conversionsOn, hat, List.flatMap_singleton, ← hlines, hmessages]
    exact List.prefix_refl _
  case count =>
    intro hdirectory
    cases hfile.symm.trans hdirectory
  case unchanged => rfl

theorem agree_of_directory (format : Format) (haccepted : AcceptedArgs settings args s.files)
    (hnamed : s.files.WellNamed) (hdirectory : s.files.isDirectory args.path = true)
    (hsome : s.files.layouts args.path ≠ [])
    (hread : ∀ layout ∈ s.files.layouts args.path,
      s.files.read layout = .ok (textAt s.files layout))
    (hrun : (convert settings args).run.run s = (result, next))
    (hsaved : ∀ fault, result = .error fault → fault.isUnsaved = false) :
    Agree settings args format s ((check settings args.path format).run.run s) (result, next) := by
  have hat : layoutsAt s.files args.path = s.files.layouts args.path := if_pos hdirectory
  have hreads : ∀ layout ∈ layoutsAt s.files args.path,
      s.files.read layout = .ok (textAt s.files layout) := by rwa [hat]
  have hcheck := run_check settings format (.inl hdirectory) (by rwa [hat]) hreads
  have hapart : ∀ layout ∈ s.files.layouts args.path, ∀ other ∈ s.files.layouts args.path,
      Place.ofPath layout ≠ Place.ofPath (Path.outputFor args.path (args.out.getD defaultOut) other) :=
    fun layout hlayout other hother =>
      FileTree.ofPath_ne_outputFor hnamed hdirectory hlayout hother _
  rw [run_convert_directory haccepted hdirectory] at hrun
  rcases writes_convertEach settings.options (packageOf settings args) args.path
      (args.out.getD defaultOut) (textAt s.files) _ s hread hapart with
    ⟨fault, mid, hfailed, hfault⟩ | ⟨rejected, mid, hdone, hrejected, -, hmessages⟩
  · rw [convertDirectory, run_bind_of_ok (run_layouts hsome), run_bind_of_error hfailed] at hrun
    obtain ⟨rfl, -⟩ := Prod.mk.inj hrun
    cases hfault.symm.trans (hsaved fault rfl)
  obtain ⟨last, hconvert, -, hlines, -⟩ := run_convertDirectory settings hsome hdone
  obtain ⟨rfl, rfl⟩ := Prod.mk.inj (hconvert.symm.trans hrun)
  have hlength : rejected.length = failures settings.options (textAt s.files)
      (s.files.layouts args.path) := by
    rw [hrejected, ← List.countP_eq_length_filter]
    refine List.countP_congr fun layout _ => ?_
    rw [batchConversion, batchOptions, Conversion.isFailure_of_function]
  have hconverts : ∀ layout ∈ layoutsAt s.files args.path, Converts settings args s layout
      (.ofSource (batchOptions settings.options layout) (textAt s.files layout)) := by
    rw [hat]
    intro layout hlayout
    obtain ⟨before, rest, hfound⟩ := List.append_of_mem hlayout
    obtain ⟨others, next, hbefore, hturn⟩ := exists_turn hread hapart hdone hfound
    exact .turn hdirectory hfound hbefore hturn
  have hempty : rejected.isEmpty = true ↔
      failures settings.options (textAt s.files) (s.files.layouts args.path) = 0 := by
    rw [List.isEmpty_iff, ← hlength, List.length_eq_zero_iff]
  rw [hcheck]
  constructor
  case ok_iff =>
    simp only [hat, hempty, hlength]
    split <;> simp
  case reports =>
    refine fun _ => shows_of_converts _ format hconverts rfl rfl ?_
    rw [lines_conversionsOn, hat, ← lines_batch, ← hmessages]
    exact hlines
  case count =>
    intro _ _
    refine ⟨_, rfl, ?_⟩
    simp only [hat, ← failures_eq _ hread, hempty, hlength, and_self]
  case unchanged => rfl

/-- Checking a layout or a directory succeeds if and only if converting it does, and finds the
same, if what is there can be read and written. -/
theorem check_agree_convert (settings : Settings) (args : ConvertArgs) (format : Format)
    (s : Session) (hnamed : s.files.WellNamed) (htarget : IsTarget s.files args.path)
    (haccepted : AcceptedArgs settings args s.files)
    (hread : ∀ layout ∈ layoutsAt s.files args.path, ∃ text, s.files.read layout = .ok text)
    (hrun : (convert settings args).run.run s = (result, next))
    (hsaved : ∀ fault, result = .error fault → fault.isUnsaved = false) :
    Agree settings args format s ((check settings args.path format).run.run s)
      (result, next) := by
  cases hdirectory : s.files.isDirectory args.path with
  | false =>
    have hat : layoutsAt s.files args.path = [args.path] := if_neg (by simp [hdirectory])
    rw [hat, List.forall_mem_singleton] at hread
    exact agree_of_file format haccepted htarget hdirectory (read_eq_textAt hread) hrun hsaved
  | true =>
    have hat : layoutsAt s.files args.path = s.files.layouts args.path := if_pos hdirectory
    rw [hat] at hread
    by_cases hempty : s.files.layouts args.path = []
    · rw [← hrun]
      exact agree_of_empty format haccepted hdirectory hempty
    · exact agree_of_directory format haccepted hnamed hdirectory hempty
        (fun layout hlayout => read_eq_textAt (hread layout hlayout)) hrun hsaved

end

def packaged : ConvertArgs where
  path := "res"
  package := some "com.example"

theorem check_agree_packaged :
    layoutsAt overlap.files packaged.path = ["res/a-b.xml", "res/a_b.xml"] ∧
      ((check {} packaged.path .json).run.run overlap).1 = .error (.someMalformed 1) ∧
      ∃ next, (convert {} packaged).run.run overlap = (.error (.someRejected 1), next) ∧
        Agree {} packaged .json overlap ((check {} packaged.path .json).run.run overlap)
          (.error (.someRejected 1), next) := by
  have hdirectory : overlap.files.isDirectory packaged.path = true := by decide
  have hat : layoutsAt overlap.files packaged.path = ["res/a-b.xml", "res/a_b.xml"] :=
    (if_pos hdirectory).trans layouts_overlap
  have haccepted : AcceptedArgs {} packaged overlap.files := ⟨.inr (by decide), by simp [packaged]⟩
  have hread : ∀ layout ∈ layoutsAt overlap.files packaged.path,
      ∃ text, overlap.files.read layout = .ok text := by
    rw [hat]
    simp only [List.forall_mem_cons, List.not_mem_nil, false_imp_iff, implies_true, and_true]
    exact ⟨⟨"<View/>", by decide⟩, ⟨"<a>", by decide⟩⟩
  have hresult : ((convertEach ({} : Settings).options (some "com.example") "res" "compose-out"
      ["res/a-b.xml", "res/a_b.xml"]).run.run overlap).1 = .ok ["res/a_b.xml"] := by
    decide +kernel
  rw [← layouts_overlap] at hresult
  have hsome : overlap.files.layouts "res" ≠ [] := by simp [layouts_overlap]
  obtain ⟨next, hrun, -⟩ := run_convertDirectory {} hsome (Prod.ext hresult rfl)
  have hconvert : (convert {} packaged).run.run overlap = (.error (.someRejected 1), next) :=
    (run_convert_directory haccepted hdirectory).trans hrun
  have hagree := check_agree_convert {} packaged .json overlap wellNamed_overlap (.inl hdirectory)
    haccepted hread hconvert (by rintro fault ⟨⟩; rfl)
  obtain ⟨n, -, hchecked, hconverted⟩ := hagree.count hdirectory hsome
  obtain rfl : n = 1 := by
    split at hconverted
    · cases hconverted
    · simpa using hconverted.symm
  exact ⟨hat, hchecked, next, hconvert, hagree⟩

end Command

end LayoutCompose
