import LayoutCompose.Files.Path
import LayoutCompose.Proofs.CodeText
import Mathlib.Data.List.Basic

/-!
# Paths below a directory

A path that is made from a directory and names has the components of the directory, however
that one is written, and then the names. The directory of a layout below a root is therefore
found again by taking the root away, and the code goes to the same names below the output
directory.
-/

namespace LayoutCompose

namespace Text

theorem toList_slash : "/".toList = ['/'] := rfl

theorem pieces_intercalate (hfree : ∀ name ∈ names, '/' ∉ name.toList)
    (hne : names ≠ []) : pieces '/' ("/".intercalate names) = names := by
  have hchars : ∀ chars ∈ names.map String.toList, '/' ∉ chars := by simpa using hfree
  rw [pieces, String.toList_intercalate, toList_slash,
    List.splitOn_intercalate '/' hchars (by simpa using hne), List.map_map]
  have hid : String.ofList ∘ String.toList = id := funext fun _ => String.ofList_toList
  rw [hid, List.map_id]

end Text

namespace Path

-- ---------------------------------------------------------------------------
-- Heads and pieces
-- ---------------------------------------------------------------------------

theorem head_append_drop (path : String) :
    (head path).toList ++ path.toList.drop (head path).length = path.toList := by
  unfold head
  split <;> simp [*, String.length]

theorem head_length (path : String) :
    (head path).length = if head path == "" then 0 else 1 := by
  unfold head
  split <;> rfl

theorem head_append_slash (h : path ≠ "") (rest : String) :
    head (path ++ "/" ++ rest) = head path := by
  unfold head
  rw [String.toList_append, String.toList_append, Text.toList_slash]
  rcases hchars : path.toList with - | ⟨c, - | ⟨d, cs⟩⟩
  · exact absurd (String.toList_eq_nil_iff.mp hchars) h
  · grind
  · grind

theorem head_slash_append (rest : String) : head ("/" ++ rest) = "/" := by
  unfold head
  rw [String.toList_append]
  rfl

theorem map_toList_ofList (l : List (List Char)) : (l.map String.ofList).map String.toList = l := by
  rw [List.map_map]
  have hid : String.toList ∘ String.ofList = id := funext fun _ => String.toList_ofList
  rw [hid, List.map_id]

theorem pieces_eq (path : String) :
    pieces path = ((path.toList.drop (head path).length).splitOn '/').map String.ofList := by
  rw [pieces, Text.pieces, String.toList_ofList]

theorem ofPieces_head_pieces (path : String) : ofPieces (head path) (pieces path) = path := by
  rw [← String.toList_inj, ofPieces, String.toList_append, String.toList_intercalate, pieces_eq,
    map_toList_ofList, Text.toList_slash, List.intercalate_splitOn, head_append_drop]

theorem slash_not_mem_pieces (h : piece ∈ pieces path) : '/' ∉ piece.toList := by
  rw [pieces_eq] at h
  obtain ⟨chars, hchars, rfl⟩ := List.mem_map.mp h
  rw [String.toList_ofList]
  exact Text.not_mem_splitOnP (.inl (by decide)) chars hchars

/-- A text of pieces that starts as it should is read as these pieces. -/
theorem pieces_ofPieces {start : String} (hhead : head (ofPieces start ps) = start) (hne : ps ≠ [])
    (hfree : ∀ piece ∈ ps, '/' ∉ piece.toList) : pieces (ofPieces start ps) = ps := by
  rw [pieces, hhead, ofPieces, String.toList_append, ← String.length_toList, List.drop_left,
    String.ofList_toList]
  exact Text.pieces_intercalate hfree hne

theorem pieces_append_slash (h : path ≠ "") (rest : String) :
    pieces (path ++ "/" ++ rest) = pieces path ++ Text.pieces '/' rest := by
  have hle : (head path).length ≤ path.toList.length := by
    rw [← String.length_toList]
    exact List.IsPrefix.length_le ⟨_, head_append_drop path⟩
  rw [pieces_eq, pieces_eq, head_append_slash h, Text.pieces, String.toList_append,
    String.toList_append, Text.toList_slash, List.append_assoc, List.drop_append_of_le_length hle,
    List.singleton_append, List.splitOn_append_cons_self, List.map_append]

-- ---------------------------------------------------------------------------
-- Names below a directory
-- ---------------------------------------------------------------------------

structure IsName (name : String) : Prop where
  ne_empty : name ≠ ""
  ne_dot : name ≠ "."
  ne_dots : name ≠ ".."
  slash_free : '/' ∉ name.toList

theorem IsName.isIdle (h : IsName name) : Path.isIdle name = false := by
  simp [Path.isIdle, h.ne_empty, h.ne_dot]

theorem IsName.head (h : IsName name) : Path.head name = "" := by
  unfold Path.head
  split
  case h_1 hchars => exact absurd (hchars ▸ List.mem_cons_self) h.slash_free
  case h_2 hchars => exact absurd (String.toList_inj.mp hchars) h.ne_dot
  case h_3 hchars => exact absurd (hchars ▸ by simp) h.slash_free
  case h_4 => rfl

theorem head_intercalate (h : ∀ name ∈ names, IsName name) : head ("/".intercalate names) = "" := by
  rcases names with - | ⟨name, - | ⟨next, rest⟩⟩
  · rfl
  · simpa using (h name List.mem_cons_self).head
  · have hname := h name List.mem_cons_self
    rw [String.intercalate_cons_cons, head_append_slash hname.ne_empty, hname.head]

theorem endsWith_slash_iff : Text.endsWith "/" text = true ↔ ∃ base, text = base ++ "/" := by
  rw [Text.endsWith, List.isSuffixOf_iff_suffix]
  constructor
  · rintro ⟨chars, hchars⟩
    refine ⟨String.ofList chars, ?_⟩
    rw [← String.toList_inj, ← hchars, String.toList_append, Text.toList_slash,
      String.toList_ofList]
  · rintro ⟨base, rfl⟩
    rw [String.toList_append]
    exact List.suffix_append _ _

/-- The text of a directory as the beginning of longer paths. -/
def lead (root : String) : String :=
  if root == "" || Text.endsWith "/" root then root else root ++ "/"

theorem join_eq (h : head right = "") (left : String) : join left right = lead left ++ right := by
  have habsolute : isAbsolute right = false := by rw [isAbsolute, h]; rfl
  rw [join, habsolute, lead]
  split <;> split <;> simp_all

theorem lead_cases (root : String) :
    (root = "" ∧ lead root = "") ∨ (root = "/" ∧ lead root = "/") ∨
      ∃ base, base ≠ "" ∧ lead root = base ++ "/" ∧ (root = base ∨ root = base ++ "/") := by
  unfold lead
  split
  case isTrue h =>
    rw [Bool.or_eq_true, endsWith_slash_iff] at h
    rcases h with hempty | ⟨base, rfl⟩
    · exact .inl ⟨by simpa using hempty, by simpa using hempty⟩
    · by_cases hbase : base = ""
      · subst hbase
        exact .inr (.inl ⟨rfl, rfl⟩)
      · exact .inr (.inr ⟨base, hbase, rfl, .inr rfl⟩)
  case isFalse h =>
    have hne : root ≠ "" := by
      rintro rfl
      exact h rfl
    exact .inr (.inr ⟨root, hne, rfl, .inl rfl⟩)

def below (root : String) (names : List String) : String :=
  join root ("/".intercalate names)

def parts (path : String) : List String := (pieces path).filter (!isIdle ·)

/-- A directory with a slash after it is the same directory. -/
theorem head_slash (h : root ≠ "") : head (root ++ "/") = head root := by
  have hhead := head_append_slash h ""
  rwa [String.append_empty] at hhead

theorem pieces_slash (h : root ≠ "") : pieces (root ++ "/") = pieces root ++ [""] := by
  have hpieces := pieces_append_slash h ""
  rwa [String.append_empty] at hpieces

theorem parts_slash (h : root ≠ "") : parts (root ++ "/") = parts root := by
  have hidle : [""].filter (!isIdle ·) = [] := by decide
  rw [parts, pieces_slash h, List.filter_append, hidle, List.append_nil, parts]

theorem pieces_lead (root : String) : ∃ before, pieces (lead root) = before ++ [""] := by
  obtain ⟨-, hlead⟩ | ⟨-, hlead⟩ | ⟨base, hbase, hlead, -⟩ := lead_cases root
  · exact ⟨[], by rw [hlead]; decide⟩
  · exact ⟨[], by rw [hlead]; decide⟩
  · exact ⟨pieces base, by rw [hlead, pieces_slash hbase]⟩

theorem parts_lead (root : String) : parts (lead root) = parts root := by
  obtain ⟨rfl, hlead⟩ | ⟨rfl, hlead⟩ | ⟨base, hbase, hlead, rfl | rfl⟩ := lead_cases root
  · rw [hlead]
  · rw [hlead]
  · rw [hlead, parts_slash hbase]
  · rw [hlead]

theorem below_eq (h : ∀ name ∈ names, IsName name) (root : String) :
    below root names = lead root ++ "/".intercalate names :=
  join_eq (head_intercalate h) root

theorem head_below (h : ∀ name ∈ names, IsName name) (root : String) :
    head (below root names) = head root := by
  rw [below_eq h]
  obtain ⟨rfl, hlead⟩ | ⟨rfl, hlead⟩ | ⟨base, hbase, hlead, hroot⟩ := lead_cases root
  · rw [hlead, String.empty_append]
    exact head_intercalate h
  · rw [hlead, head_slash_append]
    rfl
  · rw [hlead, head_append_slash hbase]
    rcases hroot with rfl | rfl
    · rfl
    · exact (head_slash hbase).symm

theorem pieces_below (h : ∀ name ∈ names, IsName name) (root : String) :
    ∃ before, pieces (below root names) = before ++ names ∧
      before.filter (!isIdle ·) = parts root := by
  have hfree : ∀ name ∈ names, '/' ∉ name.toList := fun name hname => (h name hname).slash_free
  by_cases hne : names = []
  · subst hne
    refine ⟨pieces (lead root), ?_, parts_lead root⟩
    rw [below_eq h, String.intercalate_nil, String.append_empty, List.append_nil]
  obtain ⟨rfl, hlead⟩ | ⟨rfl, hlead⟩ | ⟨base, hbase, hlead, hroot⟩ := lead_cases root
  · refine ⟨[], ?_, rfl⟩
    have hhead := head_below h ""
    rw [below_eq h, hlead] at hhead ⊢
    exact pieces_ofPieces hhead hne hfree
  · refine ⟨[], ?_, rfl⟩
    have hhead := head_below h "/"
    rw [below_eq h, hlead] at hhead ⊢
    exact pieces_ofPieces hhead hne hfree
  · refine ⟨pieces base, ?_, ?_⟩
    · rw [below_eq h, hlead, pieces_append_slash hbase, Text.pieces_intercalate hfree hne]
    · rcases hroot with rfl | rfl
      · rfl
      · exact (parts_slash hbase).symm

theorem filter_names {names : List String} (h : ∀ name ∈ names, IsName name) :
    names.filter (!isIdle ·) = names := by
  rw [List.filter_eq_self]
  intro name hname
  rw [(h name hname).isIdle]
  rfl

theorem components_of_parts {names : List String} (hhead : head path = head root)
    (hpieces : pieces path = before ++ names) (hbefore : before.filter (!isIdle ·) = parts root)
    (h : ∀ name ∈ names, IsName name) : components path = components root ++ names := by
  rw [components, components, hhead, hpieces, List.filter_append, hbefore, filter_names h, parts,
    List.append_assoc]

theorem components_below {names : List String} (h : ∀ name ∈ names, IsName name) (root : String) :
    components (below root names) = components root ++ names := by
  obtain ⟨before, hpieces, hbefore⟩ := pieces_below h root
  exact components_of_parts (head_below h root) hpieces hbefore h

theorem lead_lead (root : String) : lead (lead root) = lead root := by
  obtain ⟨-, hlead⟩ | ⟨-, hlead⟩ | ⟨base, -, hlead, -⟩ := lead_cases root
  · rw [hlead]
    rfl
  · rw [hlead]
    rfl
  · rw [hlead, lead, endsWith_slash_iff.mpr ⟨base, rfl⟩, Bool.or_true, if_pos rfl]

theorem lead_append_name (h : IsName name) (text : String) :
    lead (text ++ name) = text ++ name ++ "/" := by
  have hchars : name.toList ≠ [] := by simpa using h.ne_empty
  have hends : Text.endsWith "/" (text ++ name) = false := by
    rw [Bool.eq_false_iff]
    intro hends
    obtain ⟨base, hbase⟩ := endsWith_slash_iff.mp hends
    have hlast := congrArg (fun text : String => text.toList.getLast?) hbase
    rw [String.toList_append, String.toList_append,
      List.getLast?_append_of_ne_nil _ hchars] at hlast
    exact h.slash_free (List.mem_of_getLast? (hlast.trans List.getLast?_concat))
  have hempty : (text ++ name == "") = false := by simp [h.ne_empty]
  rw [lead, hends, hempty]
  rfl

theorem lead_below (h : ∀ name ∈ names, IsName name) (hne : names ≠ []) (root : String) :
    lead (below root names) = below root names ++ "/" := by
  rw [below_eq h]
  obtain rfl | ⟨init, last, rfl⟩ := names.eq_nil_or_concat
  · contradiction
  · have hlast : IsName last := h last (by simp)
    rw [List.concat_eq_append]
    by_cases hinit : init = []
    · subst hinit
      rw [List.nil_append, String.intercalate_singleton]
      exact lead_append_name hlast _
    · rw [String.intercalate_append_of_ne_nil hinit (List.cons_ne_nil _ _),
        String.intercalate_singleton, ← String.append_assoc]
      exact lead_append_name hlast _

theorem join_below (h : ∀ name ∈ names ++ [file], IsName name) (root : String) :
    join (below root names) file = below root (names ++ [file]) := by
  have hfile : IsName file := h file (by simp)
  have hnames : ∀ name ∈ names, IsName name := fun name hname =>
    h name (List.mem_append_left _ hname)
  rw [join_eq hfile.head, below_eq h]
  by_cases hne : names = []
  · subst hne
    rw [below_eq hnames, String.intercalate_nil, String.append_empty, lead_lead, List.nil_append,
      String.intercalate_singleton]
  · rw [lead_below hnames hne, below_eq hnames,
      String.intercalate_append_of_ne_nil hne (List.cons_ne_nil _ _), String.intercalate_singleton]
    simp only [String.append_assoc]

-- ---------------------------------------------------------------------------
-- The parts of a path below a directory
-- ---------------------------------------------------------------------------

theorem splitName_concat (hname : name ≠ "") (hdot : '.' ∉ extension.toList) :
    splitName (name ++ ("." ++ extension)) = (name, some extension) := by
  have hpoint : ".".toList = ['.'] := rfl
  have hchars : (name ++ ("." ++ extension)).toList = name.toList ++ '.' :: extension.toList := by
    rw [String.toList_append, String.toList_append, hpoint, List.singleton_append]
  have hplain : ∀ c ∈ extension.toList.reverse, (c != '.') = true := by
    intro c hc
    rw [bne_iff_ne]
    rintro rfl
    exact hdot (List.mem_reverse.mp hc)
  have hafter : (((name ++ ("." ++ extension)).toList.reverse.takeWhile (· != '.'))).reverse =
      extension.toList := by
    rw [hchars, List.reverse_append, List.reverse_cons, List.append_assoc,
      List.takeWhile_append_of_pos hplain]
    simp
  have hbefore : (name ++ ("." ++ extension)).toList.take
      ((name ++ ("." ++ extension)).toList.length - extension.toList.length - 1) = name.toList := by
    rw [hchars, List.length_append, List.length_cons]
    have hlength : name.toList.length + (extension.toList.length + 1) -
        extension.toList.length - 1 = name.toList.length := by omega
    rw [hlength, List.take_left]
  have hne : name.toList.isEmpty = false := by simpa using hname
  simp only [splitName, hafter, hbefore, hne, String.ofList_toList]
  rfl

theorem eq_concat_of_splitName (h : (splitName name).2 = some extension) :
    ∃ base, base ≠ "" ∧ name = base ++ ("." ++ extension) := by
  obtain ⟨rest, hrest, hpoint⟩ : ∃ rest : List Char,
      name.toList = rest ++ (name.toList.reverse.takeWhile (· != '.')).reverse ∧
        (rest = [] ∨ ∃ init, rest = init ++ ['.']) := by
    refine ⟨(name.toList.reverse.dropWhile (· != '.')).reverse, ?_, ?_⟩
    · rw [← List.reverse_append, List.takeWhile_append_dropWhile, List.reverse_reverse]
    · rcases hdrop : name.toList.reverse.dropWhile (· != '.') with - | ⟨c, cs⟩
      · exact .inl rfl
      · have hc := List.head_dropWhile_not (· != '.') (l := name.toList.reverse)
        obtain rfl : c = '.' := by simpa [hdrop] using hc
        exact .inr ⟨cs.reverse, List.reverse_cons⟩
  simp only [splitName] at h
  generalize (name.toList.reverse.takeWhile (· != '.')).reverse = after at h hrest
  rcases hpoint with rfl | ⟨init, rfl⟩
  · rw [List.nil_append] at hrest
    simp [hrest] at h
  · have htake : name.toList.take (name.toList.length - after.length - 1) = init := by
      rw [hrest, List.append_assoc, List.length_append, List.length_append, List.length_singleton]
      have hlength : init.length + (1 + after.length) - after.length - 1 = init.length := by omega
      rw [hlength, List.take_left]
    rw [htake] at h
    split at h
    case isTrue => cases h
    case isFalse hne =>
      obtain rfl := Option.some.inj h
      refine ⟨String.ofList init, by simpa using hne, ?_⟩
      rw [← String.toList_inj, hrest]
      simp

theorem body_below (h : ∀ name ∈ names ++ [file], IsName name) (root : String) :
    ∃ before, body (below root (names ++ [file])) = before ++ names ++ [file] ∧
      pieces (below root (names ++ [file])) = before ++ names ++ [file] ∧
      before.filter (!isIdle ·) = parts root := by
  obtain ⟨before, hpieces, hbefore⟩ := pieces_below h root
  rw [← List.append_assoc] at hpieces
  have hfile : isIdle file = false := (h file (by simp)).isIdle
  exact ⟨before, by rw [body, hpieces, Text.dropEnd_concat_of_neg hfile], hpieces, hbefore⟩

theorem fileName?_below (h : ∀ name ∈ names ++ [file], IsName name) (root : String) :
    fileName? (below root (names ++ [file])) = some file := by
  obtain ⟨before, hbody, -, -⟩ := body_below h root
  simp [fileName?, hbody, (h file (by simp)).ne_dots]

/-- Pieces taken from the end leave the rest of a path as it is. -/
theorem head_ofPieces (h : pieces path = ps ++ rest) (hne : ps ≠ []) :
    head (ofPieces (head path) ps) = head path := by
  by_cases hrest : rest = []
  · subst hrest
    rw [List.append_nil] at h
    rw [← h, ofPieces_head_pieces]
  · have hpath : ofPieces (head path) ps ++ "/" ++ "/".intercalate rest = path := by
      have hwhole := ofPieces_head_pieces path
      rw [h, ofPieces, String.intercalate_append_of_ne_nil hne hrest] at hwhole
      simpa only [ofPieces, String.append_assoc] using hwhole
    by_cases hempty : ofPieces (head path) ps = ""
    · -- then the path would start with a slash, and have a head
      have hhead : head path = "" := (String.append_eq_empty_iff.mp hempty).1
      rw [hempty, String.empty_append] at hpath
      rw [← hpath, head_slash_append] at hhead
      exact absurd hhead (by decide)
    · have hhead := head_append_slash hempty ("/".intercalate rest)
      rw [hpath] at hhead
      exact hhead.symm

theorem pieces_ofPieces_head (h : pieces path = ps ++ rest) (hne : ps ≠ []) :
    pieces (ofPieces (head path) ps) = ps := by
  refine pieces_ofPieces (head_ofPieces h hne) hne fun piece hpiece => ?_
  exact slash_not_mem_pieces (h ▸ List.mem_append_left rest hpiece)

theorem pieces_head (path : String) : head (head path) = head path ∧ pieces (head path) = [""] := by
  have hcases : head path = "/" ∨ head path = "." ∨ head path = "" := by
    unfold head
    split <;> simp
  rcases hcases with h | h | h <;> rw [h] <;> decide

theorem exists_dropEnd_append (p : α → Bool) (l : List α) :
    ∃ rest, l = Text.dropEnd p l ++ rest ∧ ∀ a ∈ rest, p a = true := by
  refine ⟨(l.reverse.takeWhile p).reverse, ?_, ?_⟩
  · rw [Text.dropEnd, ← List.reverse_append, List.takeWhile_append_dropWhile, List.reverse_reverse]
  · intro a ha
    exact List.all_eq_true.mp List.all_takeWhile a (List.mem_reverse.mp ha)

theorem parent?_below (h : ∀ name ∈ names ++ [file], IsName name) (root : String) :
    ∃ parent, parent? (below root (names ++ [file])) = some parent ∧ head parent = head root ∧
      ∃ before, pieces parent = before ++ names ∧ before.filter (!isIdle ·) = parts root := by
  obtain ⟨before, hbody, hpieces, hbefore⟩ := body_below h root
  have hhead : head (below root (names ++ [file])) = head root := head_below h root
  have hparent : parent? (below root (names ++ [file])) =
      some (ofPieces (head root) (Text.dropEnd isIdle (before ++ names))) := by
    rw [parent?, hbody, hhead, List.dropLast_concat]
    simp
  refine ⟨_, hparent, ?_⟩
  rw [← hhead]
  obtain rfl | ⟨init, last, rfl⟩ := names.eq_nil_or_concat
  · obtain ⟨idle, hsplit, hidle⟩ := exists_dropEnd_append isIdle before
    have hnone : idle.filter (!isIdle ·) = [] := by simpa using hidle
    rw [List.append_nil] at hpieces ⊢
    generalize Text.dropEnd isIdle before = kept at hsplit ⊢
    subst hsplit
    rw [List.filter_append, hnone, List.append_nil] at hbefore
    rw [List.append_assoc] at hpieces
    by_cases hempty : kept = []
    · subst hempty
      obtain ⟨hself, hblank⟩ := pieces_head (below root ([] ++ [file]))
      rw [ofPieces, String.intercalate_nil, String.append_empty]
      exact ⟨hself, [""], hblank, hbefore⟩
    · refine ⟨head_ofPieces hpieces hempty, kept, ?_, hbefore⟩
      rw [pieces_ofPieces_head hpieces hempty, List.append_nil]
  · have hlast : isIdle last = false := (h last (by simp)).isIdle
    rw [List.concat_eq_append, ← List.append_assoc] at hpieces ⊢
    rw [Text.dropEnd_concat_of_neg hlast]
    refine ⟨head_ofPieces hpieces (by simp), before, ?_, hbefore⟩
    rw [pieces_ofPieces_head hpieces (by simp), List.append_assoc]

theorem dropWhile_dropParts (before after : List String) :
    (dropParts (before.filter (!isIdle ·)).length (before ++ after)).dropWhile isIdle =
      after.dropWhile isIdle := by
  induction before with
  | nil => rw [List.filter_nil, List.length_nil, List.nil_append, dropParts]
  | cons piece before ih =>
    cases hidle : isIdle piece with
    | true =>
      rw [List.filter_cons_of_neg (by simp [hidle]), List.cons_append]
      cases hcount : (before.filter (!isIdle ·)).length with
      | zero =>
        rw [hcount, dropParts] at ih
        rw [dropParts, List.dropWhile_cons_of_pos hidle]
        exact ih
      | succ n =>
        rw [dropParts, if_pos hidle, ← hcount]
        exact ih
    | false =>
      rw [List.filter_cons_of_pos (by simp [hidle]), List.cons_append, List.length_cons, dropParts,
        hidle, if_neg (by decide)]
      exact ih

theorem eq_empty_of_isIdle (hhead : head path = "") (hpieces : pieces path = piece :: rest)
    (hidle : isIdle piece = true) : path = "" := by
  have hpath := ofPieces_head_pieces path
  rw [hhead, hpieces, ofPieces, String.empty_append] at hpath
  rw [isIdle, Bool.or_eq_true, beq_iff_eq, beq_iff_eq] at hidle
  rcases rest with - | ⟨next, rest⟩
  · rw [String.intercalate_singleton] at hpath
    rcases hidle with rfl | rfl
    · exact hpath.symm
    · rw [← hpath] at hhead
      exact absurd hhead (by decide)
  · rw [String.intercalate_cons_cons] at hpath
    rcases hidle with rfl | rfl
    · rw [String.empty_append] at hpath
      rw [← hpath, head_slash_append] at hhead
      exact absurd hhead (by decide)
    · rw [← hpath, head_append_slash (by decide)] at hhead
      exact absurd hhead (by decide)

theorem dropEnd_names {names : List String} (h : ∀ name ∈ names, IsName name) :
    Text.dropEnd isIdle names = names := by
  obtain rfl | ⟨init, last, rfl⟩ := names.eq_nil_or_concat
  · rfl
  · rw [List.concat_eq_append]
    exact Text.dropEnd_concat_of_neg (h last (by simp)).isIdle

theorem dropWhile_names {names : List String} (h : ∀ name ∈ names, IsName name) :
    names.dropWhile isIdle = names := by
  rcases names with - | ⟨name, rest⟩
  · rfl
  · rw [List.dropWhile_cons_of_neg (by simp [(h name List.mem_cons_self).isIdle])]

/-- The names below a root are found again by taking the root away. -/
theorem relativeTo?_eq_some (hhead : head path = head root)
    (hpieces : pieces path = before ++ names) (hbefore : before.filter (!isIdle ·) = parts root)
    (h : ∀ name ∈ names, IsName name) : relativeTo? root path = some ("/".intercalate names) := by
  have hprefix : (components root).isPrefixOf (components path) = true := by
    rw [List.isPrefixOf_iff_prefix, components_of_parts hhead hpieces hbefore h]
    exact List.prefix_append _ _
  simp only [relativeTo?, hprefix]
  by_cases hroot : components root = []
  · obtain ⟨hstart, hparts⟩ := List.append_eq_nil_iff.mp hroot
    have hplain : head path = "" := by
      rw [hhead]
      by_contra hne
      simp [hne] at hstart
    rw [hroot, hplain]
    rcases before with - | ⟨piece, before⟩
    · rw [body, hpieces, List.nil_append, dropEnd_names h]
      rfl
    · have hidle : isIdle piece = true := by
        have hnone : (piece :: before).filter (!isIdle ·) = [] := hbefore.trans hparts
        simpa using List.filter_eq_nil_iff.mp hnone piece List.mem_cons_self
      obtain rfl := eq_empty_of_isIdle hplain hpieces hidle
      have hblank : [""] = piece :: (before ++ names) := hpieces
      obtain ⟨-, rfl⟩ := List.append_eq_nil_iff.mp (List.cons.inj hblank).2.symm
      rfl
  · have hne : (components root).isEmpty = false := by simpa using hroot
    have hcount : (components root).length - (head path).length =
        (before.filter (!isIdle ·)).length := by
      rw [hbefore, components, List.length_append, hhead, head_length, ← parts]
      split <;> simp
    simp only [hne, hcount, hpieces, dropWhile_dropParts, dropWhile_names h, dropEnd_names h]
    rfl

-- ---------------------------------------------------------------------------
-- Where code goes
-- ---------------------------------------------------------------------------

structure IsStem (base : String) : Prop where
  ne_empty : base ≠ ""
  slash_free : '/' ∉ base.toList

theorem IsStem.isName (h : IsStem base) (hslash : '/' ∉ extension.toList)
    (hdot : '.' ∉ extension.toList) (hne : extension ≠ "") :
    IsName (base ++ ("." ++ extension)) := by
  have hsplit := splitName_concat h.ne_empty hdot
  refine ⟨by simp [h.ne_empty], fun heq => ?_, fun heq => ?_, by simp [h.slash_free, hslash]⟩
  · have hnone : splitName "." = (".", none) := by decide
    rw [heq, hnone] at hsplit
    cases hsplit
  · have hblank : splitName ".." = (".", some "") := by decide
    rw [heq, hblank] at hsplit
    cases hsplit
    contradiction

theorem IsStem.functionFor (h : IsStem base) : IsStem (Name.functionFor base) := by
  have hwords : '/' ∉ (Name.camelCase base).toList :=
    Name.not_mem_camelCase (by decide) (by decide) (.inr h.slash_free)
  simp only [Name.functionFor]
  split
  case h_1 => exact ⟨by decide, by decide⟩
  case h_2 c rest hchars =>
    have hne : Name.camelCase base ≠ "" := by
      intro hempty
      simp [hempty] at hchars
    -- a name for the part before the suffix, which is tested and then repeated
    obtain ⟨name, hname⟩ : ∃ name, name =
      if c.isDigit then "Layout" ++ Name.camelCase base else Name.camelCase base := ⟨_, rfl⟩
    have hstart : IsStem name := by
      rw [hname]
      split
      · exact ⟨by simp, by simp [hwords]⟩
      · exact ⟨hne, hwords⟩
    rw [← hname]
    split
    · exact hstart
    · exact ⟨by simp [hstart.ne_empty], by simp [hstart.slash_free]⟩

theorem dot_xml : ".xml" = "." ++ "xml" := by decide

theorem dot_kt : ".kt" = "." ++ "kt" := by decide

theorem IsStem.layout (h : IsStem base) : IsName (base ++ ".xml") := by
  rw [dot_xml]
  exact h.isName (by decide) (by decide) (by decide)

theorem IsStem.fileFor (h : IsStem base) : IsName (Name.fileFor base) := by
  rw [Name.fileFor, dot_kt]
  exact h.functionFor.isName (by decide) (by decide) (by decide)

theorem stem_below (h : IsStem base) (hnames : ∀ name ∈ names ++ [base ++ ".xml"], IsName name)
    (root : String) : stem (below root (names ++ [base ++ ".xml"])) = base := by
  rw [stem, fileName?_below hnames, Option.elim_some, dot_xml,
    splitName_concat h.ne_empty (by decide)]

theorem forall_mem_concat {names : List String} (hnames : ∀ name ∈ names, IsName name)
    (hfile : IsName file) : ∀ name ∈ names ++ [file], IsName name :=
  List.forall_mem_append.mpr ⟨hnames, List.forall_mem_singleton.mpr hfile⟩

theorem isLayout_of_splitName (h : IsName name) (hsplit : splitName name = (base, some extension)) :
    isLayout name = (extension == "xml") := by
  have hnames : ∀ other ∈ [] ++ [name], IsName other := forall_mem_concat (by simp) h
  have hfile := fileName?_below hnames ""
  rw [below_eq hnames, List.nil_append, String.intercalate_singleton] at hfile
  have hname : fileName? name = some name := hfile
  rw [isLayout, extension?, hname, Option.bind_some, hsplit]
  rfl

theorem isLayout_concat (h : IsStem base) : isLayout (base ++ ".xml") = true := by
  have hname := h.layout
  rw [dot_xml] at hname ⊢
  rw [isLayout_of_splitName hname (splitName_concat h.ne_empty (by decide))]
  rfl

theorem isLayout_fileFor (h : IsStem base) : isLayout (Name.fileFor base) = false := by
  have hname := h.fileFor
  rw [Name.fileFor, dot_kt] at hname ⊢
  rw [isLayout_of_splitName hname (splitName_concat h.functionFor.ne_empty (by decide))]
  rfl

/-- The code of a layout below a root goes to the same directory below the output directory. -/
theorem outputFor_below (hnames : ∀ name ∈ names, IsName name) (h : IsStem base)
    (root out : String) :
    outputFor root out (below root (names ++ [base ++ ".xml"])) =
      below out (names ++ [Name.fileFor base]) := by
  have hlayout := forall_mem_concat hnames h.layout
  obtain ⟨parent, hparent, hhead, before, hpieces, hbefore⟩ := parent?_below hlayout root
  have hrelative := relativeTo?_eq_some hhead hpieces hbefore hnames
  rw [outputFor, hparent, Option.bind_some, hrelative, stem_below h hlayout]
  exact join_below (forall_mem_concat hnames h.fileFor) out

theorem fileFor_inj : Name.fileFor base = Name.fileFor other ↔
    Name.functionFor base = Name.functionFor other := by
  rw [Name.fileFor, Name.fileFor, String.append_left_inj]

/-- Two layouts below a root share an output if and only if they are in the same directory and
their names give the same function. -/
theorem components_outputFor_eq_iff (root out : String)
    (hnames : ∀ name ∈ names, IsName name) (hbase : IsStem base)
    (hothers : ∀ name ∈ others, IsName name) (hother : IsStem other) :
    components (outputFor root out (below root (names ++ [base ++ ".xml"]))) =
        components (outputFor root out (below root (others ++ [other ++ ".xml"]))) ↔
      names = others ∧ Name.functionFor base = Name.functionFor other := by
  rw [outputFor_below hnames hbase, outputFor_below hothers hother,
    components_below (forall_mem_concat hnames hbase.fileFor),
    components_below (forall_mem_concat hothers hother.fileFor),
    List.append_cancel_left_eq, List.append_singleton_inj, fileFor_inj]

end Path

end LayoutCompose
