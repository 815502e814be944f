-- The files that are found are the ones to convert, all of them, each once and
-- in the order of their paths. A directory that is skipped hides what is in it.
import Mathlib.Data.Prod.Lex
import Mathlib.Data.String.Basic
import Untype.Proofs.Files.Sources

namespace Untype

open Untype.Path

/-! ## The order of paths -/

namespace Path

/-- What the order of components looks at. -/
def Component.key (part : Component) : ℕ ×ₗ String := toLex (part.rank, part.text)

theorem Component.key_injective : Function.Injective Component.key := by
  intro a b h
  have h : a.rank = b.rank ∧ a.text = b.text := by simpa [Component.key] using h
  cases a <;> cases b <;> simp_all [Component.rank, Component.text]

theorem Component.le_iff {a b : Component} : a.le b ↔ a.key ≤ b.key := by
  rw [Component.key, Component.key, Prod.Lex.toLex_le_toLex]
  cases a <;> cases b <;> simp [Component.le, Component.rank, Component.text]

theorem leComponents_iff {as bs : List Component} :
    leComponents as bs ↔ as.map Component.key ≤ bs.map Component.key := by
  rw [← not_lt]
  induction as generalizing bs with
  | nil => simp [leComponents]
  | cons a as ih =>
    cases bs with
    | nil => simp [leComponents]
    | cons b bs =>
      rw [List.map_cons, List.map_cons, List.cons_lt_cons_iff, leComponents]
      split
      · rename_i heq
        simp [heq, ih]
      · rename_i hne
        have hkey : b.key ≠ a.key := fun heq => hne (Component.key_injective heq.symm)
        simp [Component.le_iff, hkey]

theorem le_iff {a b : String} :
    le a b ↔ (components a).map Component.key ≤ (components b).map Component.key :=
  leComponents_iff
end Path

/-! ## Patterns -/

/-- The pattern can be read and stands for the text. -/
def Glob.accepts (pattern text : String) : Bool :=
  match Glob.ofText pattern with
  | .ok glob => glob.isMatch text
  | .error _ => false

namespace Selection

/-- Patterns that can be read stand for what one of them does. -/
theorem exists_globs {patterns : List String}
    (h : ∀ pattern ∈ patterns, (Glob.ofText pattern).isOk) :
    ∃ all, globs patterns = .ok all ∧ ∀ text : String,
      (all.any fun glob => glob.isMatch text) = patterns.any fun pattern =>
        Glob.accepts pattern text := by
  induction patterns with
  | nil => exact ⟨[], rfl, fun text => rfl⟩
  | cons pattern patterns ih =>
    obtain ⟨hfirst, hrest⟩ := List.forall_mem_cons.1 h
    obtain ⟨all, hall, hmatch⟩ := ih hrest
    cases hglob : Glob.ofText pattern with
    | error fault => rw [hglob] at hfirst; cases hfirst
    | ok glob =>
      refine ⟨glob :: all, ?_, fun text => ?_⟩
      · unfold globs at hall ⊢
        rw [List.mapM_cons, hall, hglob]
        rfl
      · simp [hmatch, Glob.accepts, hglob]

/-- The last two dots of the name stand around a `d`. -/
def IsDeclaration (name : String) : Prop :=
  ∃ stem extension, name.toList.map Text.asciiLower = stem ++ ['.', 'd', '.'] ++ extension ∧
    '.' ∉ extension

theorem isDeclarationFile_iff {name : String} : isDeclarationFile name ↔ IsDeclaration name := by
  unfold isDeclarationFile IsDeclaration
  dsimp only
  generalize name.toList.map Text.asciiLower = cs
  constructor
  · intro h
    have hsplit := List.takeWhile_append_dropWhile (p := (· != '.')) (l := cs.reverse)
    split at h
    · rename_i rest hrest
      refine ⟨rest.reverse, (cs.reverse.takeWhile (· != '.')).reverse, ?_, fun hdot => ?_⟩
      · rw [hrest] at hsplit
        simpa using (congrArg List.reverse hsplit).symm
      · have hnot := List.all_eq_true.1 List.all_takeWhile _ (List.mem_reverse.1 hdot)
        simp at hnot
    · cases h
  · rintro ⟨stem, extension, rfl, hdot⟩
    have hall : ∀ c ∈ extension.reverse, (c != '.') := by
      intro c hc
      rw [bne_iff_ne]
      rintro rfl
      exact hdot (List.mem_reverse.1 hc)
    simp [List.dropWhile_append_of_pos hall]

/-! ## Walks -/

open FileTree

variable {s : Selection}
variable {name below : String} {entry : FileTree}

theorem mem_sourcesOf {file path : String} {entries : List FileTree} :
    file ∈ s.sourcesOf path below entries ↔ ∃ entry ∈ entries,
      (entry.isDirectory && s.skips entry.name (join below entry.name)) = false ∧
        file ∈ s.sources (join path entry.name) (join below entry.name) entry := by
  induction entries with
  | nil => simp [sourcesOf]
  | cons entry rest ih =>
    simp only [sourcesOf, List.mem_append, ih, List.mem_cons, exists_eq_or_imp]
    refine or_congr_left ?_
    split <;> simp_all

/-- No directory on the way to a place is skipped. -/
def Leads (s : Selection) (below : String) (place : List String) : Prop :=
  ∀ front name back, place = front ++ name :: back → back ≠ [] →
    s.skips name ((front ++ [name]).foldl join below) = false

theorem leads_cons {place : List String} :
    s.Leads below (name :: place) ↔
      (place ≠ [] → s.skips name (join below name) = false) ∧ s.Leads (join below name) place := by
  constructor
  · intro h
    refine ⟨h [] name place rfl, fun front other back hplace hback => ?_⟩
    exact h (name :: front) other back (by rw [hplace]; rfl) hback
  · rintro ⟨hname, hrest⟩ front other back hplace hback
    cases front with
    | nil =>
      cases hplace
      exact hname hback
    | cons first front =>
      cases hplace
      exact hrest front other back rfl hback

theorem leads_append {folder : List String} :
    s.Leads below (folder ++ [name]) ↔ ∀ front directory back, folder = front ++ directory :: back →
      s.skips directory ((front ++ [directory]).foldl join below) = false := by
  constructor
  · rintro h front directory back rfl
    exact h front directory (back ++ [name]) (by simp) (by simp)
  · intro h front directory back hplace hback
    obtain ⟨back, last, rfl⟩ := (List.eq_nil_or_concat' back).resolve_left hback
    have hsplit : folder ++ [name] = (front ++ directory :: back) ++ [last] := by simpa using hplace
    exact h front directory back (List.append_inj' hsplit rfl).1

theorem isDirectory_of_find? {found : FileTree} {place : List String}
    (h : entry.find? (name :: place) = some found) : entry.isDirectory := by
  cases entry with
  | file own content => cases h
  | directory own entries => rfl

/-- The files to convert are those at the end of a way that leads to one. -/
theorem mem_sources {file : String} : ∀ (entry : FileTree) (path below : String),
    entry.isProper → (file ∈ s.sources path below entry ↔ ∃ place name content,
      entry.find? place = some (.file name content) ∧ file = place.foldl join path ∧
        s.selects name ∧ s.Leads below place)
  | .file own content, path, below, _ => by
    rw [sources]
    constructor
    · intro h
      split at h
      · rename_i hselects
        exact ⟨[], own, content, rfl, List.mem_singleton.1 h, hselects, by simp [Leads]⟩
      · cases h
    · rintro ⟨place, name, content', hfind, rfl, hselects, -⟩
      cases place with
      | nil =>
        cases hfind
        simp [hselects]
      | cons first place => cases hfind
  | .directory own entries, path, below, hproper => by
    rw [isProper] at hproper
    rw [sources, mem_sourcesOf]
    have ih := fun entry (hmem : entry ∈ entries) =>
      @mem_sources file entry (join path entry.name) (join below entry.name)
        (isProper_of_mem hproper entry hmem).2
    constructor
    · rintro ⟨entry, hmem, hskips, hfile⟩
      obtain ⟨place, name, content, hfind, rfl, hselects, hleads⟩ := (ih entry hmem).1 hfile
      have hentry := find?_of_areProper hproper entry hmem
      refine ⟨entry.name :: place, name, content, ?_, rfl, hselects, leads_cons.2 ⟨fun hne => ?_,
        hleads⟩⟩
      · simp [FileTree.find?, FileTree.entries, hentry, hfind]
      · obtain ⟨first, rest, rfl⟩ := List.exists_cons_of_ne_nil hne
        simpa [isDirectory_of_find? hfind] using hskips
    · rintro ⟨place, name, content, hfind, rfl, hselects, hleads⟩
      cases place with
      | nil => cases hfind
      | cons first place =>
        obtain ⟨entry, hentry, hrest⟩ := Option.bind_eq_some_iff.1 hfind
        obtain rfl : entry.name = first := by simpa using List.find?_some hentry
        have hmem := List.mem_of_find?_eq_some hentry
        obtain ⟨hname, hleads⟩ := leads_cons.1 hleads
        refine ⟨entry, hmem, ?_, (ih entry hmem).2 ⟨place, name, content, hrest, rfl, hselects,
          hleads⟩⟩
        cases place with
        | nil =>
          cases hrest
          rfl
        | cons first place => simp [hname]

end Selection

open FileTree Selection

theorem name_find? {tree entry : FileTree} {folder : List String} {name : String}
    (h : tree.find? (folder ++ [name]) = some entry) : entry.name = name := by
  rw [find?_append] at h
  obtain ⟨directory, -, hfind⟩ := Option.bind_eq_some_iff.1 h
  obtain ⟨child, hchild, hsame⟩ := Option.bind_eq_some_iff.1 hfind
  cases hsame
  simpa using List.find?_some hchild

/-- The path is that of a file below the root to convert: its name is one of the patterns, it is no
declaration if these are left alone, and it stands in no directory that is skipped for its name or
its path below the root. -/
def Config.Wants (config : Config) (root : FileTree) (path : String) : Prop :=
  ∃ folder name content, root.find? (folder ++ [name]) = some (.file name content) ∧
    path = (folder ++ [name]).foldl join config.root ∧
    (∃ pattern ∈ config.extensions, Glob.accepts pattern name) ∧
    (config.skipDeclarations → ¬IsDeclaration name) ∧
    ∀ front directory back, folder = front ++ directory :: back →
      ∀ pattern ∈ config.exclude, Glob.accepts pattern directory = false ∧
        Glob.accepts pattern ((front ++ [directory]).foldl join "") = false

/-- With patterns that can be read, exactly the files to convert are found, each once, in the order
of their paths. -/
theorem discover_finds {config : Config} (tree : FileTree.Proper) {own : String}
    {entries : List FileTree} (hroot : tree.1.at? config.root = .ok (.directory own entries))
    (hpatterns : ∀ pattern ∈ config.exclude ++ config.extensions,
      (Glob.ofText pattern).isOk = true) :
    ∃ files, discover config tree = .ok files ∧ files.Nodup ∧
      files.Pairwise (fun file other => Path.le file other = true) ∧
      ∀ path, path ∈ files ↔ config.Wants (.directory own entries) path := by
  obtain ⟨hexclude, hextensions⟩ := List.forall_mem_append.1 hpatterns
  obtain ⟨excluded, hexcluded, hskip⟩ := exists_globs hexclude
  obtain ⟨included, hincluded, hinclude⟩ := exists_globs hextensions
  generalize hselection : (⟨excluded, included, config.skipDeclarations⟩ : Selection) = s
  have hdiscover : discover config tree =
      .ok ((s.sources config.root "" (.directory own entries)).mergeSort Path.le) := by
    have hconfig : Selection.ofConfig config = .ok s := by
      rw [Selection.ofConfig, hexcluded, hincluded, ← hselection]
      rfl
    rw [discover, hconfig, hroot]
    rfl
  have hselects : ∀ name, s.selects name = true ↔
      (∃ pattern ∈ config.extensions, Glob.accepts pattern name = true) ∧
        (config.skipDeclarations = true → ¬IsDeclaration name) := by
    intro name
    rw [← List.any_eq_true, ← hinclude, ← isDeclarationFile_iff, ← hselection, selects,
      Bool.and_eq_true]
    cases config.skipDeclarations <;> simp
  have hskips : ∀ name path, s.skips name path = false ↔ ∀ pattern ∈ config.exclude,
      Glob.accepts pattern name = false ∧ Glob.accepts pattern path = false := by
    intro name path
    rw [← hselection, skips, hskip, hskip]
    simp [forall_and]
  have hdirectory : tree.1.hasDirectory config.root = true := by rw [hasDirectory, hroot]; rfl
  obtain ⟨place, hresolve, -⟩ := hasDirectory_iff.1 hdirectory
  have hentry : (FileTree.directory own entries).isProper = true := by
    rw [at?_eq hresolve] at hroot
    split at hroot
    · cases hroot
      exact isProper_find? tree.2 ‹_›
    · cases hroot
  refine ⟨_, hdiscover, (discover_lie tree hdirectory hdiscover).2.nodup, ?_, fun path => ?_⟩
  · refine List.pairwise_mergeSort (fun a b c h h' => ?_) (fun a b => ?_) _
    · exact le_iff.2 ((le_iff.1 h).trans (le_iff.1 h'))
    · simpa [le_iff] using le_total _ _
  · rw [List.mem_mergeSort, mem_sources _ _ _ hentry]
    constructor
    · rintro ⟨place, name, content, hfind, rfl, hname, hleads⟩
      obtain rfl | ⟨folder, last, rfl⟩ := List.eq_nil_or_concat' place
      · cases hfind
      · obtain rfl : name = last := name_find? hfind
        refine ⟨folder, name, content, hfind, rfl, ((hselects _).1 hname).1,
          ((hselects _).1 hname).2, ?_⟩
        exact fun front directory back hfolder =>
          (hskips _ _).1 (leads_append.1 hleads front directory back hfolder)
    · rintro ⟨folder, name, content, hfind, rfl, hname, hdeclares, hfolder⟩
      refine ⟨_, name, content, hfind, rfl, (hselects _).2 ⟨hname, hdeclares⟩, leads_append.2 ?_⟩
      exact fun front directory back hplace => (hskips _ _).2 (hfolder front directory back hplace)

/-- A file in a directory beside one that is skipped is found. -/
theorem discover_finds_below :
    let entries : List FileTree := [.directory "src" [.directory "gen" [.file "a.ts" ⟨#[]⟩],
      .file "b.d.ts" ⟨#[]⟩, .file "c.TSX" ⟨#[]⟩], .directory "node_modules" [.file "d.ts" ⟨#[]⟩]]
    let config : Config := { root := "p", exclude := ["node_modules", "src/gen"] }
    config.Wants (.directory "p" entries) "p/src/c.TSX" ∧
      ∃ files, discover config (.directory "" [.directory "p" entries]) = .ok files ∧ files.Nodup ∧
        files.Pairwise (fun file other => Path.le file other = true) ∧
        ∀ path, path ∈ files ↔ config.Wants (.directory "p" entries) path := by
  intro entries config
  have hroot : (FileTree.directory "" [.directory "p" entries]).at? config.root =
      .ok (.directory "p" entries) := by
    have hresolve : (FileTree.directory "" [.directory "p" entries]).resolve config.root =
        .ok ["p"] := by
      decide +kernel
    simp [at?_eq hresolve, FileTree.find?, FileTree.entries, FileTree.name]
  refine ⟨⟨["src"], "c.TSX", ⟨#[]⟩, ?_, by decide +kernel, by decide +kernel, fun _ => ?_, ?_⟩,
    discover_finds ⟨_, by decide +kernel⟩ hroot (by decide +kernel)⟩
  · simp [entries, FileTree.find?, FileTree.entries, FileTree.name]
  · rw [← isDeclarationFile_iff]
    decide +kernel
  · rintro front directory back hfolder
    obtain ⟨rfl, rfl, rfl⟩ : front = [] ∧ directory = "src" ∧ back = [] := by
      cases front <;> simp_all
    decide +kernel

end Untype
