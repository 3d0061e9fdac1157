import LayoutCompose.Files.Tree
import LayoutCompose.Proofs.Paths

/-!
# What writing does to a file tree

A path that leads anywhere leads to the same place in every tree. Writing a file puts its text at
the place of its path, and every other place keeps what it had, but for directories that are made
where nothing was. So paths that lead somewhere go on doing so, and of several files that are
written one after the other each holds the last text that was written to its place.
-/

namespace LayoutCompose

-- ---------------------------------------------------------------------------
-- The place of a path
-- ---------------------------------------------------------------------------

namespace Place

def step (p : Place) (piece : String) : Place :=
  if Path.isIdle piece then p else if piece == ".." then p.up else p.child piece

def ofPath (path : String) : Place :=
  (Path.pieces path).foldl step (FileTree.start path)

theorem foldl_step_filter (pieces : List String) (p : Place) :
    (pieces.filter (!Path.isIdle ·)).foldl step p = pieces.foldl step p := by
  induction pieces generalizing p with
  | nil => rfl
  | cons piece pieces ih =>
    cases hidle : Path.isIdle piece with
    | true =>
      rw [List.filter_cons_of_neg (by simp [hidle]), ih, List.foldl_cons, step, if_pos hidle]
    | false => rw [List.filter_cons_of_pos (by simp [hidle]), List.foldl_cons, List.foldl_cons, ih]

theorem foldl_step_names {names : List String} (h : ∀ name ∈ names, Path.IsName name) (p : Place) :
    names.foldl step p = ⟨p.base, p.names ++ names⟩ := by
  induction names generalizing p with
  | nil => simp
  | cons name names ih =>
    obtain ⟨hname, hnames⟩ := List.forall_mem_cons.mp h
    have hstep : p.step name = p.child name := by
      rw [step, hname.isIdle]
      simp [hname.ne_dots]
    rw [List.foldl_cons, hstep, ih hnames, child, List.append_assoc, List.singleton_append]

theorem ofPath_below {names : List String} (h : ∀ name ∈ names, Path.IsName name)
    (root : String) :
    ofPath (Path.below root names) = ⟨(ofPath root).base, (ofPath root).names ++ names⟩ := by
  obtain ⟨before, hpieces, hbefore⟩ := Path.pieces_below h root
  have hstart : FileTree.start (Path.below root names) = FileTree.start root := by
    rw [FileTree.start, FileTree.start, Path.isAbsolute, Path.isAbsolute, Path.head_below h]
  rw [ofPath, ofPath, hpieces, hstart, List.foldl_append, foldl_step_names h,
    ← foldl_step_filter before, hbefore, Path.parts, foldl_step_filter]

end Place

namespace FileTree

-- ---------------------------------------------------------------------------
-- Following paths
-- ---------------------------------------------------------------------------

/-- What a piece of a path asks of the directory that it is followed from. -/
def Passes (t : FileTree) (p : Place) (piece : String) : Prop :=
  Path.isIdle piece = true ∨ piece = ".." ∨ isLongName piece = false ∧ t.get? (p.child piece) ≠ none

theorem follow_cons_eq_ok_iff {t : FileTree} : t.follow (piece :: rest) p = .ok q ↔
    t.get? p = some .directory ∧ t.Passes p piece ∧ t.follow rest (p.step piece) = .ok q := by
  rw [follow, Passes, Place.step]
  grind

theorem follow_append_eq_ok_iff {t : FileTree} : t.follow (pieces ++ rest) p = .ok q ↔
    ∃ r, t.follow pieces p = .ok r ∧ t.follow rest r = .ok q := by
  induction pieces generalizing p with
  | nil => simp [follow]
  | cons piece pieces ih =>
    rw [List.cons_append, follow_cons_eq_ok_iff, ih]
    simp only [follow_cons_eq_ok_iff]
    grind

theorem follow_eq_ok {t : FileTree} (h : t.follow pieces p = .ok q) :
    pieces.foldl Place.step p = q := by
  induction pieces generalizing p with
  | nil => exact Except.ok.inj h
  | cons piece pieces ih => exact ih (follow_cons_eq_ok_iff.mp h).2.2

theorem find_eq_ok_iff {t : FileTree} : t.find path = .ok p ↔
    pathFault? path = none ∧ path ≠ "" ∧ t.follow (Path.pieces path) (start path) = .ok p := by
  unfold find
  cases pathFault? path with
  | some fault => simp
  | none => by_cases hpath : path = "" <;> simp [hpath]

theorem ofPath_eq_of_find {t : FileTree} (h : t.find path = .ok p) : Place.ofPath path = p :=
  follow_eq_ok (find_eq_ok_iff.mp h).2.2

theorem read_eq_ok_iff {t : FileTree} : t.read path = .ok text ↔
    t.find path = .ok (Place.ofPath path) ∧
      t.get? (Place.ofPath path) = some (.file (some text)) := by
  unfold read
  cases hfind : t.find path with
  | error fault => simp
  | ok p =>
    obtain rfl := ofPath_eq_of_find hfind
    grind

structure Grows (t t' : FileTree) : Prop where
  directory : ∀ p, t.get? p = some .directory → t'.get? p = some .directory
  present : ∀ p, t.get? p ≠ none → t'.get? p ≠ none

theorem Grows.trans {t t' t'' : FileTree} (h : Grows t t') (h' : Grows t' t'') : Grows t t'' :=
  ⟨fun p hp => h'.directory p (h.directory p hp), fun p hp => h'.present p (h.present p hp)⟩

theorem Grows.passes {t t' : FileTree} (h : Grows t t') (hpasses : t.Passes p piece) :
    t'.Passes p piece :=
  hpasses.imp_right (Or.imp_right (And.imp_right (h.present _)))

theorem Grows.follow {t t' : FileTree} (h : Grows t t') (hfollow : t.follow pieces p = .ok q) :
    t'.follow pieces p = .ok q := by
  induction pieces generalizing p with
  | nil => exact hfollow
  | cons piece pieces ih =>
    obtain ⟨hdirectory, hpasses, hrest⟩ := follow_cons_eq_ok_iff.mp hfollow
    exact follow_cons_eq_ok_iff.mpr ⟨h.directory p hdirectory, h.passes hpasses, ih hrest⟩

theorem Grows.find {t t' : FileTree} (h : Grows t t') (hfind : t.find path = .ok p) :
    t'.find path = .ok p := by
  obtain ⟨hfault, hempty, hfollow⟩ := find_eq_ok_iff.mp hfind
  exact find_eq_ok_iff.mpr ⟨hfault, hempty, h.follow hfollow⟩

-- ---------------------------------------------------------------------------
-- Making directories
-- ---------------------------------------------------------------------------

/-- A place has what it had, or is a new directory. -/
def Keeps (t t' : FileTree) (p : Place) : Prop :=
  t'.get? p = t.get? p ∨ t.get? p = none ∧ t'.get? p = some .directory

theorem Keeps.of_some {t t' : FileTree} (h : Keeps t t' p) (hsome : t.get? p = some e) :
    t'.get? p = some e := by
  rcases h with hsame | ⟨hnone, -⟩
  · rw [hsame, hsome]
  · cases hnone.symm.trans hsome

theorem Keeps.file_iff {t t' : FileTree} (h : Keeps t t' p) :
    t'.get? p = some (.file content) ↔ t.get? p = some (.file content) := by
  rcases h with hsame | ⟨hnone, hnew⟩
  · rw [hsame]
  · simp [hnone, hnew]

theorem Keeps.trans {t t' t'' : FileTree} (h : Keeps t t' p) (h' : Keeps t' t'' p) :
    Keeps t t'' p := by
  rcases h with hsame | ⟨hnone, hnew⟩
  · rwa [Keeps, ← hsame]
  · exact .inr ⟨hnone, h'.of_some hnew⟩

theorem keeps_set_directory {t : FileTree} (h : t.get? p = none) (q : Place) :
    Keeps t (t.set p .directory) q := by
  by_cases hq : q = p
  · subst hq
    have hnames : q.names ≠ [] := by
      intro hnil
      simp [get?, hnil] at h
    exact .inr ⟨h, get?_set t .directory hnames⟩
  · exact .inl (get?_set_of_ne t .directory hq)

theorem keeps_makeWay (t : FileTree) (pieces : List String) (p q : Place) :
    Keeps t (t.makeWay pieces p).1 q := by
  fun_induction makeWay t pieces p with
  | case1 t p => exact .inl rfl
  | case2 t p piece rest h => exact .inl rfl
  | case3 t p piece rest h hidle ih => exact ih
  | case4 t p piece rest h hidle hup ih => exact ih
  | case5 => exact .inl rfl
  | case6 t p piece rest h hidle hup hlong hnone ih =>
    exact (keeps_set_directory (by simpa using hnone) q).trans ih
  | case7 t p piece rest h hidle hup hlong hsome ih => exact ih

theorem keeps_makeDirectories (t : FileTree) (path : String) (q : Place) :
    Keeps t (t.makeDirectories path).1 q := by
  unfold makeDirectories
  split
  · exact .inl rfl
  · exact keeps_makeWay t _ _ q

-- ---------------------------------------------------------------------------
-- Writing files
-- ---------------------------------------------------------------------------

structure Saves (t : FileTree) (path text : String) (t' : FileTree) : Prop where
  free : t.get? (Place.ofPath path) ≠ some .directory
  find : t'.find path = .ok (Place.ofPath path)
  get : t'.get? (Place.ofPath path) = some (.file (some text))
  keeps : ∀ q, q ≠ Place.ofPath path → Keeps t t' q

theorem Grows.of_keeps {t t' : FileTree} (hfree : t.get? p ≠ some .directory)
    (hfile : t'.get? p = some e) (hkeeps : ∀ q, q ≠ p → Keeps t t' q) : Grows t t' := by
  refine ⟨fun q hdirectory => ?_, fun q hpresent => ?_⟩
  · have hne : q ≠ p := fun heq => hfree (heq ▸ hdirectory)
    exact (hkeeps q hne).of_some hdirectory
  · by_cases heq : q = p
    · rw [heq, hfile]
      exact Option.some_ne_none _
    · obtain ⟨e, he⟩ := Option.ne_none_iff_exists'.mp hpresent
      rw [(hkeeps q heq).of_some he]
      exact Option.some_ne_none _

theorem Saves.grows {t t' : FileTree} (h : Saves t path text t') : Grows t t' :=
  .of_keeps h.free h.get h.keeps

theorem Saves.of_keeps {t mid t' : FileTree} (hkeeps : ∀ q, Keeps t mid q)
    (h : Saves mid path text t') : Saves t path text t' :=
  ⟨fun hdirectory => h.free ((hkeeps _).of_some hdirectory), h.find, h.get,
    fun q hq => (hkeeps q).trans (h.keeps q hq)⟩

theorem Saves.read {t t' : FileTree} (h : Saves t path text t') : t'.read path = .ok text :=
  read_eq_ok_iff.mpr ⟨h.find, h.get⟩

theorem of_ite_error_eq_ok {c : Prop} [Decidable c] {x : Except Fault Place}
    (h : (if c then .error fault else x) = .ok p) : ¬c ∧ x = .ok p := by
  by_cases hc : c
  · rw [if_pos hc] at h
    cases h
  · rw [if_neg hc] at h
    exact ⟨hc, h⟩

theorem findTarget_eq_ok {t : FileTree} (h : t.findTarget path = .ok p) :
    pathFault? path = none ∧ path ≠ "" ∧ ∃ pieces name d, Path.pieces path = pieces ++ [name] ∧
      t.follow pieces (start path) = .ok d ∧ t.get? d = some .directory ∧
      Path.isIdle name = false ∧ name ≠ ".." ∧ isLongName name = false ∧
      t.get? (d.child name) ≠ some .directory ∧ p = d.child name := by
  unfold findTarget at h
  split at h
  · cases h
  case h_2 hfault =>
    simp only at h
    split at h
    · cases h
    case h_2 name hlast =>
      refine ⟨hfault, ?_⟩
      cases hfollow : t.follow (Path.pieces path).dropLast (start path) with
      | error fault =>
        rw [hfollow] at h
        cases h
      | ok d =>
        rw [hfollow] at h
        have hpieces : Path.pieces path = (Path.pieces path).dropLast ++ [name] :=
          (List.dropLast_append_getLast? name hlast).symm
        simp only [bind, Except.bind, pure, Except.pure, throw, throwThe, MonadExceptOf.throw] at h
        obtain ⟨hempty, h⟩ := of_ite_error_eq_ok h
        obtain ⟨hdirectory, h⟩ := of_ite_error_eq_ok h
        obtain ⟨hname, h⟩ := of_ite_error_eq_ok h
        obtain ⟨hlong, h⟩ := of_ite_error_eq_ok h
        obtain ⟨hfree, h⟩ := of_ite_error_eq_ok h
        rw [Bool.or_eq_true, not_or, Bool.not_eq_true, beq_iff_eq] at hname
        exact ⟨by simpa using hempty, _, name, d, hpieces, hfollow, by simpa using hdirectory,
          hname.1, hname.2, by simpa using hlong, hfree, (Except.ok.inj h).symm⟩

theorem write_eq_ok {t t' : FileTree} (h : t.write path text = .ok t') :
    ∃ p, t.findTarget path = .ok p ∧ t' = t.set p (.file (some text)) := by
  cases htarget : t.findTarget path with
  | error fault =>
    rw [write, htarget] at h
    cases h
  | ok p =>
    rw [write, htarget] at h
    exact ⟨p, rfl, (Except.ok.inj h).symm⟩

theorem saves_of_write {t t' : FileTree} (h : t.write path text = .ok t') :
    Saves t path text t' := by
  obtain ⟨p, htarget, rfl⟩ := write_eq_ok h
  obtain ⟨hfault, hempty, pieces, name, d, hpieces, hfollow, hd, hidle, hdots, hlong, hfree, rfl⟩ :=
    findTarget_eq_ok htarget
  have hname : (d.child name).names ≠ [] := by simp [Place.child]
  have hget := get?_set t (.file (some text)) hname
  have hkeeps : ∀ q, q ≠ d.child name → Keeps t (t.set (d.child name) (.file (some text))) q :=
    fun q hq => .inl (get?_set_of_ne t _ hq)
  have hgrows := Grows.of_keeps hfree hget hkeeps
  have hstep : d.step name = d.child name := by simp [Place.step, hidle, hdots]
  have hfind : (t.set (d.child name) (.file (some text))).find path = .ok (d.child name) := by
    refine find_eq_ok_iff.mpr ⟨hfault, hempty, ?_⟩
    rw [hpieces]
    refine follow_append_eq_ok_iff.mpr ⟨d, hgrows.follow hfollow, ?_⟩
    refine follow_cons_eq_ok_iff.mpr ⟨hgrows.directory d hd, .inr (.inr ⟨hlong, ?_⟩), ?_⟩
    · rw [hget]
      exact Option.some_ne_none _
    · rw [hstep, follow]
  have hplace := ofPath_eq_of_find hfind
  constructor
  case free =>
    rw [hplace]
    exact hfree
  case find =>
    rw [hplace]
    exact hfind
  case get =>
    rw [hplace]
    exact hget
  case keeps =>
    rw [hplace]
    exact hkeeps

theorem Saves.read_of_ne {t t' : FileTree} (h : Saves t path text t')
    (hne : Place.ofPath other ≠ Place.ofPath path) (hread : t.read other = .ok content) :
    t'.read other = .ok content := by
  obtain ⟨hfind, hget⟩ := read_eq_ok_iff.mp hread
  exact read_eq_ok_iff.mpr ⟨h.grows.find hfind, (h.keeps _ hne).of_some hget⟩

def SavesAll (t : FileTree) : List (String × String) → FileTree → Prop
  | [], t' => t' = t
  | (path, text) :: rest, t' => ∃ mid, Saves t path text mid ∧ SavesAll mid rest t'

theorem SavesAll.grows {t t' : FileTree} (h : SavesAll t saved t') : Grows t t' := by
  induction saved generalizing t with
  | nil =>
    obtain rfl : t' = t := h
    exact ⟨fun _ => id, fun _ => id⟩
  | cons first rest ih =>
    obtain ⟨mid, hfirst, hrest⟩ := h
    exact hfirst.grows.trans (ih hrest)

theorem SavesAll.keeps {t t' : FileTree} (h : SavesAll t saved t')
    (hq : ∀ first ∈ saved, q ≠ Place.ofPath first.1) : Keeps t t' q := by
  induction saved generalizing t with
  | nil =>
    obtain rfl : t' = t := h
    exact .inl rfl
  | cons first rest ih =>
    obtain ⟨mid, hfirst, hrest⟩ := h
    obtain ⟨hne, hothers⟩ := List.forall_mem_cons.mp hq
    exact (hfirst.keeps q hne).trans (ih hrest hothers)

theorem SavesAll.read_of_ne {t t' : FileTree} (h : SavesAll t saved t')
    (hne : ∀ first ∈ saved, Place.ofPath other ≠ Place.ofPath first.1)
    (hread : t.read other = .ok content) : t'.read other = .ok content := by
  obtain ⟨hfind, hget⟩ := read_eq_ok_iff.mp hread
  exact read_eq_ok_iff.mpr ⟨h.grows.find hfind, (h.keeps hne).of_some hget⟩

theorem SavesAll.append {t t' : FileTree} (h : SavesAll t (saved ++ rest) t') :
    ∃ mid, SavesAll t saved mid ∧ SavesAll mid rest t' := by
  induction saved generalizing t with
  | nil => exact ⟨t, rfl, h⟩
  | cons first saved ih =>
    obtain ⟨next, hfirst, hnext⟩ := h
    obtain ⟨mid, hsaved, hrest⟩ := ih hnext
    exact ⟨mid, ⟨next, hfirst, hsaved⟩, hrest⟩

theorem SavesAll.find {t t' : FileTree} (h : SavesAll t saved t') (hmem : (path, text) ∈ saved) :
    t'.find path = .ok (Place.ofPath path) := by
  obtain ⟨before, after, rfl⟩ := List.append_of_mem hmem
  obtain ⟨mid, -, next, hsaves, hafter⟩ := h.append
  exact hafter.grows.find hsaves.find

/-- The last text that is written to a place stays there. -/
theorem SavesAll.read_of_last {t t' : FileTree}
    (h : SavesAll t (before ++ (path, text) :: after) t')
    (hlast : ∀ other ∈ after, Place.ofPath path ≠ Place.ofPath other.1) :
    t'.read path = .ok text := by
  obtain ⟨mid, -, next, hsaves, hafter⟩ := h.append
  exact read_eq_ok_iff.mpr ⟨hafter.grows.find hsaves.find, (hafter.keeps hlast).of_some hsaves.get⟩

-- ---------------------------------------------------------------------------
-- Layouts below a directory
-- ---------------------------------------------------------------------------

def WellNamed (t : FileTree) : Prop :=
  ∀ entry ∈ t.entries, ∀ name ∈ entry.1.names, Path.IsName name

theorem WellNamed.set {t : FileTree} (h : t.WellNamed) (hp : ∀ name ∈ p.names, Path.IsName name)
    (e : Entry) : (t.set p e).WellNamed := by
  intro entry hentry
  rcases List.mem_cons.mp hentry with rfl | hentry
  · exact hp
  · exact h entry (List.mem_of_mem_filter hentry)

theorem isName_step {p : Place} (hp : ∀ name ∈ p.names, Path.IsName name)
    (hslash : '/' ∉ piece.toList) : ∀ name ∈ (p.step piece).names, Path.IsName name := by
  unfold Place.step
  split
  case isTrue => exact hp
  case isFalse hidle =>
    split
    case isTrue =>
      unfold Place.up
      repeat' split
      · exact hp
      · exact fun name hname => nomatch hname
      · exact fun name hname => hp name (List.dropLast_subset _ hname)
    case isFalse hdots =>
      have hidle : piece ≠ "" ∧ piece ≠ "." := by simpa [Path.isIdle] using hidle
      have hpiece : Path.IsName piece := ⟨hidle.1, hidle.2, by simpa using hdots, hslash⟩
      exact Path.forall_mem_concat hp hpiece

theorem isName_foldl_step {p : Place} {pieces : List String}
    (hp : ∀ name ∈ p.names, Path.IsName name)
    (hpieces : ∀ piece ∈ pieces, '/' ∉ piece.toList) :
    ∀ name ∈ (pieces.foldl Place.step p).names, Path.IsName name := by
  induction pieces generalizing p with
  | nil => exact hp
  | cons piece pieces ih =>
    obtain ⟨hslash, hrest⟩ := List.forall_mem_cons.mp hpieces
    exact ih (isName_step hp hslash) hrest

theorem isName_start : ∀ name ∈ (start path).names, Path.IsName name := by
  intro name hname
  unfold start at hname
  split at hname <;> cases hname

theorem WellNamed.makeWay {t : FileTree} (h : t.WellNamed) (hp : ∀ name ∈ p.names, Path.IsName name)
    (hpieces : ∀ piece ∈ pieces, '/' ∉ piece.toList) : (t.makeWay pieces p).1.WellNamed := by
  fun_induction FileTree.makeWay t pieces p with
  | case1 => exact h
  | case2 => exact h
  | case3 t p piece rest hdirectory hidle ih => exact ih h hp (List.forall_mem_cons.mp hpieces).2
  | case4 t p piece rest hdirectory hidle hup ih =>
    obtain ⟨hslash, hrest⟩ := List.forall_mem_cons.mp hpieces
    have hstep := isName_step hp hslash
    rw [Place.step, if_neg hidle, if_pos hup] at hstep
    exact ih h hstep hrest
  | case5 => exact h
  | case6 t p piece rest hdirectory hidle hup hlong hnone ih =>
    obtain ⟨hslash, hrest⟩ := List.forall_mem_cons.mp hpieces
    have hstep := isName_step hp hslash
    rw [Place.step, if_neg hidle, if_neg hup] at hstep
    exact ih (h.set hstep _) hstep hrest
  | case7 t p piece rest hdirectory hidle hup hlong hsome ih =>
    obtain ⟨hslash, hrest⟩ := List.forall_mem_cons.mp hpieces
    have hstep := isName_step hp hslash
    rw [Place.step, if_neg hidle, if_neg hup] at hstep
    exact ih h hstep hrest

/-- Making directories and writing files keeps a tree well named. -/
theorem WellNamed.makeDirectories {t : FileTree} (h : t.WellNamed) (path : String) :
    (t.makeDirectories path).1.WellNamed := by
  unfold FileTree.makeDirectories
  split
  · exact h
  · exact h.makeWay isName_start fun piece hpiece => Path.slash_not_mem_pieces hpiece

theorem WellNamed.write {t t' : FileTree} (h : t.WellNamed) (hwrite : t.write path text = .ok t') :
    t'.WellNamed := by
  obtain ⟨p, htarget, rfl⟩ := write_eq_ok hwrite
  obtain ⟨-, -, pieces, name, d, hpieces, hfollow, -, hidle, hdots, -, -, rfl⟩ :=
    findTarget_eq_ok htarget
  have hstep : d.step name = d.child name := by simp [Place.step, hidle, hdots]
  have hslash : ∀ piece ∈ pieces ++ [name], '/' ∉ piece.toList := fun piece hpiece =>
    Path.slash_not_mem_pieces (hpieces ▸ hpiece)
  have hd : ∀ other ∈ d.names, Path.IsName other := by
    rw [← follow_eq_ok hfollow]
    refine isName_foldl_step isName_start fun piece hpiece => ?_
    exact hslash piece (List.mem_append_left _ hpiece)
  refine h.set ?_ _
  rw [← hstep]
  exact isName_step hd (hslash name (by simp))

theorem isName_of_mem_below {t : FileTree} (h : t.WellNamed) (hnames : names ∈ t.below p) :
    ∀ name ∈ names, Path.IsName name := by
  rw [below, List.mem_mergeSort, List.mem_filterMap] at hnames
  obtain ⟨⟨q, e⟩, hentry, hq⟩ := hnames
  cases e with
  | directory => cases hq
  | file content =>
    simp only [Place.namesTo?] at hq
    split at hq
    · have hsplit : p.names ++ names = q.names := List.isPrefixOf?_eq_some_iff_append_eq.mp hq
      intro name hname
      exact h _ hentry name (hsplit ▸ List.mem_append_right _ hname)
    · cases hq

theorem isFile_iff {t : FileTree} : t.isFile path = true ↔
    t.find path = .ok (Place.ofPath path) ∧
      ∃ content, t.get? (Place.ofPath path) = some (.file content) := by
  unfold isFile entryAt?
  cases hfind : t.find path with
  | error fault => simp [Except.toOption]
  | ok p =>
    obtain rfl := ofPath_eq_of_find hfind
    simp only [Except.toOption, Option.bind_some]
    split <;> simp_all

theorem isDirectory_iff {t : FileTree} : t.isDirectory path = true ↔
    t.find path = .ok (Place.ofPath path) ∧ t.get? (Place.ofPath path) = some .directory := by
  unfold isDirectory entryAt?
  cases hfind : t.find path with
  | error fault => simp [Except.toOption]
  | ok p =>
    obtain rfl := ofPath_eq_of_find hfind
    simp [Except.toOption]

/-- The last piece of a path to a file names it. -/
theorem isIdle_of_isFile {t : FileTree} (h : t.isFile path = true)
    (hpieces : Path.pieces path = pieces ++ [piece]) : Path.isIdle piece = false := by
  obtain ⟨hfind, content, hget⟩ := isFile_iff.mp h
  have hfollow := (find_eq_ok_iff.mp hfind).2.2
  rw [hpieces] at hfollow
  obtain ⟨d, -, hlast⟩ := follow_append_eq_ok_iff.mp hfollow
  obtain ⟨hd, -, hstep⟩ := follow_cons_eq_ok_iff.mp hlast
  rw [Bool.eq_false_iff]
  intro hidle
  rw [Place.step, if_pos hidle, follow] at hstep
  rw [← Except.ok.inj hstep, hd] at hget
  cases hget

theorem layouts_eq {t : FileTree} (h : t.isDirectory root = true) :
    t.layouts root = ((t.below (Place.ofPath root)).map (Path.below root)).filter
      fun path => t.isFile path && Path.isLayout path := by
  obtain ⟨hfind, hget⟩ := isDirectory_iff.mp h
  simp only [layouts, hfind, hget]
  rfl

/-- A layout below a directory has a name there, which ends as those of layouts do. -/
theorem exists_below_of_mem_layouts {t : FileTree} (hnamed : t.WellNamed)
    (hroot : t.isDirectory root = true) (h : layout ∈ t.layouts root) :
    ∃ names base, (∀ name ∈ names, Path.IsName name) ∧ Path.IsStem base ∧
      layout = Path.below root (names ++ [base ++ ".xml"]) := by
  rw [layouts_eq hroot, List.mem_filter, Bool.and_eq_true] at h
  obtain ⟨hmem, hfile, hlayout⟩ := h
  obtain ⟨names, hnames, rfl⟩ := List.mem_map.mp hmem
  have hvalid := isName_of_mem_below hnamed hnames
  obtain rfl | ⟨init, file, rfl⟩ := names.eq_nil_or_concat
  · -- the directory itself is no file, with a slash after it or not
    obtain ⟨before, hpieces⟩ := Path.pieces_lead root
    rw [Path.below_eq hvalid, String.intercalate_nil, String.append_empty] at hfile
    cases isIdle_of_isFile hfile hpieces
  · rw [List.concat_eq_append] at hvalid hlayout ⊢
    rw [Path.isLayout, Path.extension?, Path.fileName?_below hvalid, beq_iff_eq] at hlayout
    obtain ⟨base, hne, rfl⟩ := Path.eq_concat_of_splitName hlayout
    have hslash := (hvalid _ (List.mem_append_right _ List.mem_cons_self)).slash_free
    refine ⟨init, base, fun name hname => hvalid name (List.mem_append_left _ hname),
      ⟨hne, ?_⟩, rfl⟩
    rw [String.toList_append] at hslash
    exact fun hmem => hslash (List.mem_append_left _ hmem)

theorem namesLe_cons_cons (a b : String) (as bs : List String) :
    namesLe (a :: as) (b :: bs) = true ↔ a < b ∨ a = b ∧ namesLe as bs = true := by
  simp [namesLe]

theorem namesLe_trans (a b c : List String) (hab : namesLe a b = true) (hbc : namesLe b c = true) :
    namesLe a c = true := by
  induction a generalizing b c with
  | nil => rfl
  | cons x a ih =>
    rcases b with - | ⟨y, b⟩
    · cases hab
    rcases c with - | ⟨z, c⟩
    · cases hbc
    rw [namesLe_cons_cons] at hab hbc ⊢
    rcases hab with hxy | ⟨rfl, hab⟩
    · rcases hbc with hyz | ⟨rfl, -⟩
      · exact .inl (String.lt_trans hxy hyz)
      · exact .inl hxy
    · exact hbc.imp_right fun ⟨heq, hbc⟩ => ⟨heq, ih b c hab hbc⟩

theorem namesLe_total (a b : List String) : (namesLe a b || namesLe b a) = true := by
  rw [Bool.or_eq_true]
  induction a generalizing b with
  | nil => exact .inl rfl
  | cons x a ih =>
    rcases b with - | ⟨y, b⟩
    · exact .inr rfl
    rw [namesLe_cons_cons, namesLe_cons_cons]
    rcases Std.lt_trichotomy x y with hlt | rfl | hlt
    · exact .inl (.inl hlt)
    · exact (ih b).imp (fun h => .inr ⟨rfl, h⟩) (fun h => .inr ⟨rfl, h⟩)
    · exact .inr (.inl hlt)

theorem namesLe_append_left (start a b : List String) :
    namesLe (start ++ a) (start ++ b) = namesLe a b := by
  induction start with
  | nil => rfl
  | cons name start ih =>
    have hirrefl : ¬name < name := String.lt_irrefl name
    rw [List.cons_append, List.cons_append, Bool.eq_iff_iff, namesLe_cons_cons, ih]
    exact ⟨fun h => (h.resolve_left hirrefl).2, fun h => .inr ⟨rfl, h⟩⟩

/-- Layouts are found in the order of their components. -/
theorem pairwise_layouts {t : FileTree} (hnamed : t.WellNamed)
    (hroot : t.isDirectory root = true) : (t.layouts root).Pairwise
      fun a b => namesLe (Path.components a) (Path.components b) = true := by
  rw [layouts_eq hroot]
  refine List.Pairwise.filter _ (List.pairwise_map.mpr ?_)
  refine (List.pairwise_mergeSort namesLe_trans namesLe_total _).imp_of_mem ?_
  intro a b ha hb hle
  rw [Path.components_below (isName_of_mem_below hnamed ha),
    Path.components_below (isName_of_mem_below hnamed hb), namesLe_append_left]
  exact hle

end FileTree

end LayoutCompose
