-- The files to convert of a tree: each of them is a file at a place of its
-- own, which its path leads to.
import Untype.Files.Discovery
import Untype.Proofs.Files.Names

namespace Untype

open Untype.Path

namespace FileTree

variable {entry : FileTree} {entries : List FileTree}

/-! ## Proper trees -/

mutual

/-- The entries of every directory have names that differ. -/
def isProper : FileTree → Bool
  | file _ _ => true
  | directory _ entries => areProper entries

/-- These entries can stand side by side. -/
def areProper : List FileTree → Bool
  | [] => true
  | entry :: rest =>
    isName entry.name && (rest.all fun other => other.name != entry.name) && isProper entry &&
      areProper rest

end

theorem areProper_cons {rest : List FileTree} :
    areProper (entry :: rest) ↔ isName entry.name ∧
      (∀ other ∈ rest, other.name ≠ entry.name) ∧ entry.isProper ∧ areProper rest := by
  simp [areProper, and_assoc]

theorem isProper_of_mem (h : areProper entries) :
    ∀ entry ∈ entries, isName entry.name ∧ entry.isProper := by
  induction entries with
  | nil => exact nofun
  | cons first rest ih =>
    obtain ⟨hname, -, hfirst, hrest⟩ := areProper_cons.1 h
    exact List.forall_mem_cons.2 ⟨⟨hname, hfirst⟩, ih hrest⟩

theorem find?_of_areProper (h : areProper entries) :
    ∀ entry ∈ entries, entries.find? (fun other => other.name == entry.name) = some entry := by
  induction entries with
  | nil => exact nofun
  | cons first rest ih =>
    obtain ⟨-, hdiffer, -, hrest⟩ := areProper_cons.1 h
    intro entry hentry
    rcases List.mem_cons.1 hentry with rfl | hentry
    · simp
    · have hne : first.name ≠ entry.name := Ne.symm (hdiffer entry hentry)
      rw [List.find?_cons, (by simpa using hne : (first.name == entry.name) = false)]
      exact ih hrest entry hentry

/-- What stands in a proper tree is proper. -/
theorem isProper_find? {tree : FileTree} {place : List String} (h : tree.isProper)
    (hfind : tree.find? place = some entry) : entry.isProper := by
  induction place generalizing tree with
  | nil =>
    cases hfind
    exact h
  | cons name place ih =>
    obtain ⟨child, hchild, hrest⟩ := Option.bind_eq_some_iff.1 hfind
    cases tree with
    | file own content => cases hchild
    | directory own entries =>
      rw [isProper] at h
      exact ih (isProper_of_mem h child (List.mem_of_find?_eq_some hchild)).2 hrest

/-- A tree in which a path leads to one entry at most. -/
abbrev Proper := { tree : FileTree // tree.isProper }

/-! ## Places of files -/

/-- The path leads to the file of this name in the directory at the place `folder`. -/
structure LiesAt (tree : FileTree) (path : String) (folder : List String) (name : String) :
    Prop where
  path : ∃ directory, path = join directory name ∧ tree.resolve directory = .ok folder
  isName : isName name
  file : ∃ content, tree.view (folder ++ [name]) = some (some content)

namespace LiesAt

variable {tree : FileTree} {path : String} {folder : List String} {name : String}

theorem directory (h : LiesAt tree path folder name) : tree.view folder = some none := by
  obtain ⟨content, hcontent⟩ := h.file
  exact view_of_below (by rw [hcontent]; rfl)

theorem resolve (h : LiesAt tree path folder name) :
    tree.resolve path = .ok (folder ++ [name]) := by
  obtain ⟨directory, rfl, hdirectory⟩ := h.path
  obtain ⟨content, hcontent⟩ := h.file
  rw [resolve_join hdirectory h.directory h.isName, hcontent]
  rfl

end LiesAt

end FileTree

namespace Selection

open FileTree

variable (s : Selection) {tree : FileTree}
variable {path : String} {paths : List String}

/-- Paths to files below a place. -/
def LieBelow (tree : FileTree) (place : List String) (paths : List String) : Prop :=
  ∀ path ∈ paths, ∃ folder name, place <+: folder ++ [name] ∧ LiesAt tree path folder name

/-- The paths lead to places that differ. -/
def LieApart (tree : FileTree) (paths : List String) : Prop :=
  paths.Pairwise fun path other => tree.resolve path ≠ tree.resolve other

theorem LieApart.split {front back : List String} (h : LieApart tree (front ++ path :: back)) :
    ∀ other ∈ front ++ back, tree.resolve other ≠ tree.resolve path := by
  obtain ⟨-, hback, hfront⟩ := List.pairwise_append.1 h
  refine List.forall_mem_append.2 ⟨fun other hother => ?_, fun other hother => ?_⟩
  · exact hfront other hother path List.mem_cons_self
  · exact Ne.symm ((List.pairwise_cons.1 hback).1 other hother)

theorem LieApart.eq_of_resolve (h : LieApart tree paths) {other : String} (hpath : path ∈ paths)
    (hother : other ∈ paths) (heq : tree.resolve other = tree.resolve path) : other = path := by
  obtain ⟨front, back, rfl⟩ := List.append_of_mem hpath
  by_contra hne
  refine h.split other ?_ heq
  simpa [hne] using hother

theorem LieApart.nodup (h : LieApart tree paths) : paths.Nodup :=
  h.imp fun hne heq => hne (congrArg tree.resolve heq)

theorem lieApart_append {place : List String} {first second : String} {others : List String}
    (hne : first ≠ second) (hpaths : LieBelow tree (place ++ [first]) paths)
    (hothers : LieBelow tree (place ++ [second]) others) :
    ∀ path ∈ paths, ∀ other ∈ others, tree.resolve path ≠ tree.resolve other := by
  intro path hpath other hother heq
  obtain ⟨folder, name, ⟨below, hbelow⟩, hlies⟩ := hpaths path hpath
  obtain ⟨folder', name', ⟨below', hbelow'⟩, hlies'⟩ := hothers other hother
  rw [hlies.resolve, hlies'.resolve, ← hbelow, ← hbelow'] at heq
  have hsame : first = second ∧ below = below' := by simpa using heq
  exact hne hsame.1

mutual

/-- The files to convert below a place. A file is one of its directory. -/
theorem sources_lie : ∀ (entry : FileTree) (path below : String) (place : List String),
    entry.isProper → tree.resolve path = .ok place → tree.find? place = some entry →
    (entry.isDirectory = false → ∃ folder name, place = folder ++ [name] ∧
      LiesAt tree path folder name) →
    LieBelow tree place (s.sources path below entry) ∧ LieApart tree (s.sources path below entry)
  | .file own content, path, below, place, hproper, hresolve, hfind, hfile => by
    rw [sources]
    split
    · obtain ⟨folder, name, rfl, hlies⟩ := hfile rfl
      refine ⟨?_, List.pairwise_singleton _ _⟩
      intro other hother
      obtain rfl := List.mem_singleton.1 hother
      exact ⟨folder, name, List.prefix_rfl, hlies⟩
    · exact ⟨nofun, .nil⟩
  | .directory own entries, path, below, place, hproper, hresolve, hfind, hfile => by
    rw [isProper] at hproper
    rw [sources]
    obtain ⟨hbelow, hapart⟩ := sourcesOf_lie entries path below place own entries hproper hresolve
      hfind (find?_of_areProper hproper)
    refine ⟨fun other hother => ?_, hapart⟩
    obtain ⟨entry, -, folder, name, hplace, hlies⟩ := hbelow other hother
    exact ⟨folder, name, (List.prefix_append _ _).trans hplace, hlies⟩

/-- The files to convert among some entries of a directory. -/
theorem sourcesOf_lie : ∀ (entries : List FileTree) (path below : String) (place : List String)
    (own : String) (all : List FileTree), areProper entries →
    tree.resolve path = .ok place → tree.find? place = some (.directory own all) →
    (∀ entry ∈ entries, all.find? (fun other => other.name == entry.name) = some entry) →
    (∀ other ∈ s.sourcesOf path below entries, ∃ entry ∈ entries, ∃ folder name,
      place ++ [entry.name] <+: folder ++ [name] ∧ LiesAt tree other folder name) ∧
      LieApart tree (s.sourcesOf path below entries)
  | [], path, below, place, own, all, hproper, hresolve, hfind, hall => by
    rw [sourcesOf]
    exact ⟨nofun, .nil⟩
  | entry :: rest, path, below, place, own, all, hproper, hresolve, hfind, hall => by
    obtain ⟨hname, hdiffer, hentry, hrest⟩ := areProper_cons.1 hproper
    rw [List.forall_mem_cons] at hall
    obtain ⟨hbelow, hapart⟩ :=
      sourcesOf_lie rest path below place own all hrest hresolve hfind hall.2
    have hfind' : tree.find? (place ++ [entry.name]) = some entry := by
      rw [find?_append, hfind]
      simp [FileTree.find?, FileTree.entries, hall.1]
    have hdirectory : tree.view place = some none := by rw [view, hfind]; rfl
    have hsome : (tree.view (place ++ [entry.name])).isSome := by rw [view, hfind']; rfl
    have hresolve' : tree.resolve (join path entry.name) = .ok (place ++ [entry.name]) := by
      rw [resolve_join hresolve hdirectory hname, if_pos hsome]
    have hfile : entry.isDirectory = false → ∃ folder name,
        place ++ [entry.name] = folder ++ [name] ∧
          LiesAt tree (join path entry.name) folder name := by
      intro hisfile
      refine ⟨place, entry.name, rfl, ⟨path, rfl, hresolve⟩, hname, ?_⟩
      cases entry with
      | file own content => exact ⟨content, by rw [view, hfind']; rfl⟩
      | directory own entries => cases hisfile
    obtain ⟨hfirst, hfirst'⟩ := sources_lie entry (join path entry.name) (join below entry.name)
      (place ++ [entry.name]) hentry hresolve' hfind' hfile
    rw [sourcesOf]
    generalize hpaths : (if entry.isDirectory && s.skips entry.name (join below entry.name) then []
      else s.sources (join path entry.name) (join below entry.name) entry) = paths
    have hpaths : LieBelow tree (place ++ [entry.name]) paths ∧ LieApart tree paths := by
      subst hpaths
      split
      · exact ⟨nofun, .nil⟩
      · exact ⟨hfirst, hfirst'⟩
    refine ⟨fun other hother => ?_, List.pairwise_append.2 ⟨hpaths.2, hapart, ?_⟩⟩
    · rcases List.mem_append.1 hother with hother | hother
      · exact ⟨entry, List.mem_cons_self, hpaths.1 other hother⟩
      · obtain ⟨entry', hmem, hlies⟩ := hbelow other hother
        exact ⟨entry', List.mem_cons_of_mem _ hmem, hlies⟩
    · intro path' hpath' other hother
      obtain ⟨entry', hmem, hlies⟩ := hbelow other hother
      refine lieApart_append (Ne.symm (hdiffer entry' hmem)) hpaths.1 ?_ path' hpath' other
        (List.mem_singleton_self other)
      intro only honly
      obtain rfl := List.mem_singleton.1 honly
      exact hlies

end

end Selection

open FileTree Selection

/-- The files that are found lie at places of their own. -/
theorem discover_lie {config : Config} (tree : Proper) {paths : List String}
    (hroot : tree.1.hasDirectory config.root) (h : discover config tree = .ok paths) :
    (∀ path ∈ paths, ∃ folder name, LiesAt tree path folder name) ∧ LieApart tree paths := by
  obtain ⟨place, hresolve, hview⟩ := hasDirectory_iff.1 hroot
  obtain ⟨entry, hfind, hdirectory⟩ := Option.map_eq_some_iff.1 hview
  have hisdir : entry.isDirectory := by
    cases entry with
    | file own content => cases hdirectory
    | directory own entries => rfl
  unfold discover at h
  rw [at?_eq hresolve, hfind] at h
  cases hselection : Selection.ofConfig config with
  | error error => rw [hselection] at h; cases h
  | ok selection =>
    rw [hselection] at h
    obtain rfl : (selection.sources config.root "" entry).mergeSort Path.le = paths :=
      Except.ok.inj h
    obtain ⟨hbelow, hapart⟩ := selection.sources_lie entry config.root "" place
      (isProper_find? tree.2 hfind) hresolve hfind (by simp [hisdir])
    have hperm := List.mergeSort_perm (selection.sources config.root "" entry) Path.le
    refine ⟨fun path hpath => ?_, ?_⟩
    · obtain ⟨folder, name, -, hlies⟩ := hbelow path (hperm.mem_iff.1 hpath)
      exact ⟨folder, name, hlies⟩
    · exact hapart.perm hperm.symm fun hne => Ne.symm hne

end Untype
