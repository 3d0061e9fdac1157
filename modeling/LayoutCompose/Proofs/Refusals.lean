import LayoutCompose.Proofs.CheckAgreement

/-!
# Arguments that are refused

Converting looks at its arguments before it does anything: at the package, the path and the name,
and at whether there is a layout that can be read. What is wrong with them is reported from the
session as it was, and once something has been done only faults of other kinds come up.
-/

namespace LayoutCompose.Command

-- ---------------------------------------------------------------------------
-- Reasons
-- ---------------------------------------------------------------------------

/-- What is wrong with the arguments of a conversion where certain files are, and the fault that
says so. -/
inductive Refusal (settings : Settings) (args : ConvertArgs) (files : FileTree) : Fault → Prop where
  | package (hpackage : args.noPackage = false)
      (h : Name.checkPackage (args.package.getD settings.package) = .error fault) :
      Refusal settings args files (.badName fault)
  | missing (h : files.isPresent args.path = false) :
      Refusal settings args files (.notFound args.path)
  | otherFile (hfile : files.isDirectory args.path = false) (h : Path.isLayout args.path = false) :
      Refusal settings args files (.notLayout args.path)
  | nameForDirectory (hdirectory : files.isDirectory args.path = true)
      (h : args.name.isSome = true) : Refusal settings args files .nameForDirectory
  | name (hfile : files.isDirectory args.path = false) (hname : args.name = some name)
      (h : Name.checkFunction name = .error fault) :
      Refusal settings args files (.badName fault)
  | noLayouts (hdirectory : files.isDirectory args.path = true)
      (h : files.layouts args.path = []) : Refusal settings args files (.noLayouts args.path)
  | unreadable (hfile : files.isDirectory args.path = false)
      (h : files.read args.path = .error fault) :
      Refusal settings args files (.unreadable args.path)

/-- The faults that refuse arguments. A layout that cannot be read is one of them unless it may
have its turn after other layouts of a directory. -/
def Fault.isRefusal (directory : Bool) : Fault → Bool
  | badName _ | notFound _ | notLayout _ | nameForDirectory | noLayouts _ => true
  | unreadable _ => !directory
  | _ => false

-- ---------------------------------------------------------------------------
-- Checks
-- ---------------------------------------------------------------------------

def Checks (m : Command α) (s : Session) (R : Fault → Prop) (Q : α → Prop) : Prop :=
  (∃ fault, m.run.run s = (.error fault, s) ∧ R fault) ∨ ∃ a, m.run.run s = (.ok a, s) ∧ Q a

/-- A run that changes nothing if there is a reason to refuse it, and otherwise has faults of
other kinds only. -/
def Settles (m : Command α) (s : Session) (R P : Fault → Prop) : Prop :=
  (∃ fault, m.run.run s = (.error fault, s) ∧ R fault) ∨
    (∀ fault, ¬ R fault) ∧ ∀ fault next, m.run.run s = (.error fault, next) → P fault

theorem Checks.bind {m : Command α} {f : α → Command β} (h : Checks m s R Q)
    (hf : ∀ a, Q a → Settles (f a) s R P) : Settles (m >>= f) s R P := by
  rcases h with ⟨fault, hrun, hfault⟩ | ⟨a, hrun, ha⟩
  · exact .inl ⟨fault, run_bind_of_error hrun f, hfault⟩
  · rw [Settles, run_bind_of_ok hrun f]
    exact hf a ha

section
variable {settings : Settings} {args : ConvertArgs} {s : Session}

theorem checks_packageFor (settings : Settings) (args : ConvertArgs) (s : Session) :
    Checks (packageFor settings args) s (Refusal settings args s.files) fun _ =>
      args.noPackage = true ∨ Name.checkPackage (args.package.getD settings.package) = .ok () := by
  rw [Checks, packageFor, packageOf]
  cases hno : args.noPackage with
  | true => exact .inr ⟨none, rfl, .inl rfl⟩
  | false =>
    cases hcheck : Name.checkPackage (args.package.getD settings.package) with
    | error fault =>
      refine .inl ⟨.badName fault, ?_, .package hno hcheck⟩
      simp only [Bool.false_eq_true, if_false, Option.forM, hcheck]
      rfl
    | ok =>
      refine .inr ⟨some (args.package.getD settings.package), ?_, .inr rfl⟩
      simp only [Bool.false_eq_true, if_false, Option.forM, hcheck]
      rfl

theorem checks_target (settings : Settings) (args : ConvertArgs) (s : Session) :
    Checks (target args.path) s (Refusal settings args s.files) fun
      | .directory path => path = args.path ∧ s.files.isDirectory path = true
      | .file path => path = args.path ∧ s.files.isDirectory path = false ∧
          s.files.isPresent path = true ∧ Path.isLayout path = true := by
  cases hdirectory : s.files.isDirectory args.path with
  | true => exact .inr ⟨.directory args.path, run_target_directory hdirectory, rfl, hdirectory⟩
  | false =>
    rw [Checks, target, run_bind_of_ok (run_getFiles s), hdirectory]
    cases hpresent : s.files.isPresent args.path with
    | false => exact .inl ⟨_, rfl, .missing hpresent⟩
    | true =>
      cases hlayout : Path.isLayout args.path with
      | false => exact .inl ⟨_, rfl, .otherFile hdirectory hlayout⟩
      | true => exact .inr ⟨.file args.path, rfl, rfl, hdirectory, hpresent, hlayout⟩

theorem checks_name (hfile : s.files.isDirectory args.path = false) :
    Checks (args.name.forM fun name => liftName (Name.checkFunction name)) s
      (Refusal settings args s.files) fun _ =>
        ∀ name, args.name = some name → Name.checkFunction name = .ok () := by
  cases hname : args.name with
  | none => exact .inr ⟨(), rfl, nofun⟩
  | some name =>
    cases hcheck : Name.checkFunction name with
    | error fault =>
      refine .inl ⟨.badName fault, ?_, .name hfile hname hcheck⟩
      rw [Option.forM, hcheck]
      rfl
    | ok =>
      refine .inr ⟨(), ?_, ?_⟩
      · rw [Option.forM, hcheck]
        rfl
      · rintro _ ⟨⟩
        exact hcheck

theorem checks_convertLayout (options : Options) (hfile : s.files.isDirectory args.path = false) :
    Checks (convertLayout options args.path) s (Refusal settings args s.files) fun _ =>
      ∃ text, s.files.read args.path = .ok text := by
  cases hread : s.files.read args.path with
  | ok text => exact .inr ⟨_, run_convertLayout hread options, text, rfl⟩
  | error fault =>
    refine .inl ⟨.unreadable args.path, ?_, .unreadable hfile hread⟩
    rw [convertLayout, run_bind_of_ok (run_getFiles s), hread]
    rfl

theorem checks_layouts (hdirectory : s.files.isDirectory args.path = true) :
    Checks (layouts args.path) s (Refusal settings args s.files) fun _ =>
      s.files.layouts args.path ≠ [] := by
  by_cases hempty : s.files.layouts args.path = []
  · refine .inl ⟨.noLayouts args.path, ?_, .noLayouts hdirectory hempty⟩
    rw [layouts, run_bind_of_ok (run_getFiles s), hempty]
    rfl
  · exact .inr ⟨_, run_layouts hempty, hempty⟩

end

-- ---------------------------------------------------------------------------
-- Faults of what comes after
-- ---------------------------------------------------------------------------

def FailsWith (m : Command α) (P : Fault → Prop) : Prop :=
  ∀ s fault next, m.run.run s = (.error fault, next) → P fault

theorem FailsWith.bind {m : Command α} {f : α → Command β} (hm : FailsWith m P)
    (hf : ∀ a, FailsWith (f a) P) : FailsWith (m >>= f) P := by
  intro s fault next h
  rcases hrun : m.run.run s with ⟨result, mid⟩
  cases result with
  | error e =>
    rw [run_bind_of_error hrun] at h
    cases h
    exact hm s fault next hrun
  | ok a =>
    rw [run_bind_of_ok hrun] at h
    exact hf a mid fault next h

theorem failsWith_pure (a : α) : FailsWith (pure a) P := nofun

theorem failsWith_print (outputs : List Output) : FailsWith (print outputs) P := nofun

theorem failsWith_printLines (lines : List String) : FailsWith (printLines lines) P := nofun

theorem failsWith_throw (h : P fault) : FailsWith (throw fault : Command α) P := by
  rintro s _ _ ⟨⟩
  exact h

theorem failsWith_of_writes {m : Command α} {Q : Session → α → Session → Prop}
    (h : ∀ s, Writes m s (Q s)) (hP : ∀ fault : Fault, fault.isUnsaved = true → P fault) :
    FailsWith m P := by
  intro s fault next hrun
  rcases h s with ⟨e, mid, hfailed, he⟩ | ⟨a, mid, hdone, -⟩
  · cases hfailed.symm.trans hrun
    exact hP fault he
  · cases hdone.symm.trans hrun

theorem Fault.isRefusal_of_isUnsaved (fault : Fault) (h : fault.isUnsaved = true) :
    fault.isRefusal directory = false := by
  cases fault with
  | notMade | notWritten => rfl
  | _ => cases h

theorem failsWith_convertLayout (options : Options) (path : String) :
    FailsWith (convertLayout options path) (·.isRefusal true = false) := by
  intro s fault next h
  rw [convertLayout, run_bind_of_ok (run_getFiles s)] at h
  cases hread : s.files.read path <;> rw [hread] at h <;> cases h
  rfl

theorem failsWith_convertEach (options : Options) (package : Option String) (root out : String)
    (found : List String) :
    FailsWith (convertEach options package root out found) (·.isRefusal true = false) := by
  induction found with
  | nil => exact failsWith_pure []
  | cons layout rest ih =>
    rw [convertEach]
    refine (failsWith_convertLayout _ layout).bind fun conversion => ?_
    refine (failsWith_printLines _).bind fun _ => ?_
    refine (failsWith_of_writes (writes_write _ _) Fault.isRefusal_of_isUnsaved).bind fun _ => ?_
    exact ih.bind fun rejected => failsWith_pure _

theorem failsWith_deliver (settings : Settings) (args : ConvertArgs) (path code : String) :
    FailsWith (deliver settings args path code) (·.isRefusal directory = false) :=
  failsWith_of_writes (writes_deliver settings args path code) Fault.isRefusal_of_isUnsaved

-- ---------------------------------------------------------------------------
-- Converting
-- ---------------------------------------------------------------------------

section
variable {settings : Settings} {args : ConvertArgs} {s : Session}

theorem settles_convertFile (package : Option String)
    (hpackage : args.noPackage = true ∨
      Name.checkPackage (args.package.getD settings.package) = .ok ())
    (hfile : s.files.isDirectory args.path = false) (hpresent : s.files.isPresent args.path = true)
    (hlayout : Path.isLayout args.path = true) :
    Settles (convertFile settings args package args.path) s (Refusal settings args s.files)
      (·.isRefusal false = false) := by
  rw [convertFile]
  refine (checks_name hfile).bind fun _ hname => ?_
  refine (checks_convertLayout _ hfile).bind fun c hread => ?_
  refine .inr ⟨?_, ?_⟩
  · intro fault hrefusal
    cases hrefusal with
    | package hno h => simp [hno, h] at hpackage
    | missing h => cases hpresent.symm.trans h
    | otherFile _ h => cases hlayout.symm.trans h
    | nameForDirectory h | noLayouts h => cases hfile.symm.trans h
    | name _ h hcheck => cases (hname _ h).symm.trans hcheck
    | unreadable _ h =>
      obtain ⟨text, hread⟩ := hread
      cases hread.symm.trans h
  · have hrest : FailsWith (do
        printLines (diagnosticLines args.path c)
        deliver settings args args.path (c.withPackage package)
        if c.isFailure then throw (.rejected args.path)) (·.isRefusal false = false) := by
      refine (failsWith_printLines _).bind fun _ => (failsWith_deliver _ _ _ _).bind fun _ => ?_
      split
      · exact failsWith_throw rfl
      · exact failsWith_pure ()
    exact hrest s

theorem settles_convertDirectory (package : Option String) (out : String)
    (hpackage : args.noPackage = true ∨
      Name.checkPackage (args.package.getD settings.package) = .ok ())
    (hdirectory : s.files.isDirectory args.path = true) (hname : args.name = none) :
    Settles (convertDirectory settings package args.path out) s (Refusal settings args s.files)
      (·.isRefusal true = false) := by
  rw [convertDirectory]
  refine (checks_layouts hdirectory).bind fun found hfound => ?_
  refine .inr ⟨?_, ?_⟩
  · intro fault hrefusal
    cases hrefusal with
    | package hno h => simp [hno, h] at hpackage
    | missing h =>
      rw [FileTree.isPresent, beq_iff_eq.mp hdirectory] at h
      cases h
    | nameForDirectory _ h => simp [hname] at h
    | noLayouts _ h => exact hfound h
    | otherFile h | name h | unreadable h => cases hdirectory.symm.trans h
  · refine FailsWith.bind (failsWith_convertEach _ _ _ _ _) (fun rejected => ?_) s
    refine (failsWith_print _).bind fun _ => ?_
    split
    · exact (failsWith_printLines _).bind fun _ => failsWith_throw rfl
    · exact failsWith_pure ()

theorem settles_convert (settings : Settings) (args : ConvertArgs) (s : Session) :
    Settles (convert settings args) s (Refusal settings args s.files)
      (·.isRefusal (s.files.isDirectory args.path) = false) := by
  rw [convert]
  refine (checks_packageFor settings args s).bind fun package hpackage => ?_
  refine (checks_target settings args s).bind fun found hfound => ?_
  cases found with
  | file path =>
    obtain ⟨rfl, hfile, hpresent, hlayout⟩ := hfound
    rw [hfile]
    exact settles_convertFile package hpackage hfile hpresent hlayout
  | directory path =>
    obtain ⟨rfl, hdirectory⟩ := hfound
    rw [hdirectory]
    cases hname : args.name with
    | some name =>
      exact .inl ⟨.nameForDirectory, rfl, .nameForDirectory hdirectory (by simp [hname])⟩
    | none => exact settles_convertDirectory package _ hpackage hdirectory hname

end

/-- Arguments with which something is wrong are refused for a reason that holds, and a conversion
that fails with a fault of that kind has changed no file and printed nothing. -/
theorem convert_refused (settings : Settings) (args : ConvertArgs) (s : Session) :
    ((∃ fault, Refusal settings args s.files fault) → ∃ fault,
      Refusal settings args s.files fault ∧
        (convert settings args).run.run s = (.error fault, s)) ∧
    ∀ fault next, (convert settings args).run.run s = (.error fault, next) →
      fault.isRefusal (s.files.isDirectory args.path) = true →
      Refusal settings args s.files fault ∧ next.files = s.files ∧ next.output = s.output ∧
        next.messages = s.messages := by
  rcases settles_convert settings args s with ⟨first, hrun, hfirst⟩ | ⟨hnone, hlate⟩
  · refine ⟨fun _ => ⟨first, hfirst, hrun⟩, fun fault next h _ => ?_⟩
    cases hrun.symm.trans h
    exact ⟨hfirst, rfl, rfl, rfl⟩
  · refine ⟨fun ⟨fault, hfault⟩ => absurd hfault (hnone fault), fun fault next h hkind => ?_⟩
    cases hkind.symm.trans (hlate fault next h)

def escaping : ConvertArgs where
  path := "res/a-b.xml"
  out := some "out"
  noPackage := true
  name := some "../Escape"

theorem refused_escaping :
    Refusal {} escaping overlap.files (.badName (.badFunction "../Escape")) ∧
      ∃ next, (convert {} escaping).run.run overlap =
          (.error (.badName (.badFunction "../Escape")), next) ∧
        next.files = overlap.files ∧ next.output = [] := by
  have hfile : overlap.files.isDirectory escaping.path = false := by decide
  have hrefusal : Refusal {} escaping overlap.files (.badName (.badFunction "../Escape")) :=
    .name hfile rfl (by decide)
  have hrun : ((convert {} escaping).run.run overlap).1 =
      .error (.badName (.badFunction "../Escape")) := by
    decide
  obtain ⟨-, hfiles, houtput, -⟩ :=
    (convert_refused {} escaping overlap).2 _ _ (Prod.ext hrun rfl) rfl
  exact ⟨hrefusal, _, Prod.ext hrun rfl, hfiles, houtput⟩

end LayoutCompose.Command
