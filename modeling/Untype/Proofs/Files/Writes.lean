-- The first half of a conversion, where files are written. What becomes of a
-- file depends on that file alone, whatever was written before.
import Mathlib.Data.List.Induction
import Untype.Files.Report
import Untype.Proofs.Files.Sources

namespace Untype

open FileTree Selection

section Writes

variable (refusals : Refusals) (options : Erasure.Options)
variable {bytes : List String → Option ByteArray} {paths place : List String} {config : Config}

/-! ## One file -/

/-- What becomes of the file at a path of the tree: it fails, or this code is written. -/
def attempt (tree : FileTree) (path : String) : Except FileError (String × WrittenFile) := do
  let converted ← convertFile options tree path
  match refusals.write path with
  | some fault => .error (.write fault.message)
  | none => .ok converted

/-- The bytes that are written to a path. -/
def writtenBytes? (tree : FileTree) (path : String) : Option ByteArray :=
  (attempt refusals options tree path).toOption.map (·.1.toUTF8)

/-- The bytes that are written to a place, when these paths are dealt with. -/
def writes (tree : FileTree) (paths : List String) (place : List String) : Option ByteArray :=
  paths.findSome? fun path =>
    if (tree.resolve path).toOption = some place then writtenBytes? refusals options tree path
    else none

variable {refusals options} {tree : FileTree} {path : String} {folder : List String} {name : String}

theorem FileTree.LiesAt.overlay (h : LiesAt tree path folder name)
    (bytes : List String → Option ByteArray) : LiesAt (tree.overlay bytes) path folder name := by
  obtain ⟨directory, hpath, hdirectory⟩ := h.path
  obtain ⟨content, hcontent⟩ := h.file
  refine ⟨⟨directory, hpath, ?_⟩, h.isName, (bytes (folder ++ [name])).getD content, ?_⟩
  · exact resolve_overlay bytes hdirectory (by rw [h.directory]; rfl)
  · rw [view_overlay, hcontent]
    rfl

theorem convertFile_overlay (h : LiesAt tree path folder name)
    (hbytes : bytes (folder ++ [name]) = none) :
    convertFile options (tree.overlay bytes) path = convertFile options tree path := by
  obtain ⟨content, hcontent⟩ := h.file
  have hread : tree.read path = .ok content := read_eq_ok.2 ⟨_, h.resolve, hcontent⟩
  have hread' : (tree.overlay bytes).read path = .ok content := by
    refine read_eq_ok.2 ⟨_, (h.overlay bytes).resolve, ?_⟩
    rw [view_overlay, hcontent, hbytes]
    rfl
  unfold convertFile
  rw [hread, hread']

theorem write_overlay (h : LiesAt tree path folder name) (bytes : List String → Option ByteArray)
    (content : ByteArray) : (tree.overlay bytes).write path content =
      .ok (tree.overlay (Function.update bytes (folder ++ [name]) (some content))) := by
  obtain ⟨old, hold⟩ := h.file
  have hview : (tree.overlay bytes).view (folder ++ [name]) =
      some (some ((bytes (folder ++ [name])).getD old)) := by
    rw [view_overlay, hold]
    rfl
  rw [write_eq ((h.overlay bytes).resolve) hview, setContent_overlay]

/-! ## Several files -/

theorem writes_eq_none (h : ∀ path ∈ paths, tree.resolve path ≠ .ok place) :
    writes refusals options tree paths place = none := by
  rw [writes, List.findSome?_eq_none_iff]
  intro path hpath
  refine if_neg fun hplace => h path hpath ?_
  cases hresolve : tree.resolve path with
  | error fault => rw [hresolve] at hplace; cases hplace
  | ok found => rw [hresolve] at hplace; cases hplace; rfl

/-- One more file is dealt with. Its turn does not matter. -/
theorem writes_insert {front back : List String} (hplace : tree.resolve path = .ok place)
    (hapart : ∀ other ∈ front ++ back, tree.resolve other ≠ .ok place) :
    writes refusals options tree (front ++ path :: back) =
      match writtenBytes? refusals options tree path with
      | some bytes => Function.update (writes refusals options tree (front ++ back)) place
          (some bytes)
      | none => writes refusals options tree (front ++ back) := by
  have happend : ∀ front back other, writes refusals options tree (front ++ back) other =
      (writes refusals options tree front other).or (writes refusals options tree back other) :=
    fun front back other => List.findSome?_append
  have hcons : ∀ other, writes refusals options tree (path :: back) other =
      (if place = other then writtenBytes? refusals options tree path else none).or
        (writes refusals options tree back other) := by
    intro other
    rw [writes, List.findSome?_cons, hplace]
    simp only [Except.toOption, Option.some.injEq]
    cases (if place = other then writtenBytes? refusals options tree path else none) <;> rfl
  have hnone : writes refusals options tree (front ++ back) place = none := writes_eq_none hapart
  funext other
  rw [happend, hcons]
  by_cases hother : place = other
  · subst hother
    obtain ⟨hfront, hback⟩ := Option.or_eq_none_iff.1 ((happend front back place).symm.trans hnone)
    rw [if_pos rfl, hfront, hback, Option.none_or, Option.or_none]
    cases writtenBytes? refusals options tree path with
    | none => exact hnone.symm
    | some bytes =>
      dsimp only
      rw [Function.update_self]
  · rw [if_neg hother, Option.none_or, ← happend]
    cases writtenBytes? refusals options tree path with
    | none => rfl
    | some bytes => exact (Function.update_of_ne (Ne.symm hother) _ _).symm

theorem writes_of_mem (hapart : LieApart tree paths) (hpath : path ∈ paths)
    (hplace : tree.resolve path = .ok place) :
    writes refusals options tree paths place = writtenBytes? refusals options tree path := by
  obtain ⟨front, back, rfl⟩ := List.append_of_mem hpath
  have hother : ∀ other ∈ front ++ back, tree.resolve other ≠ .ok place := by
    rw [← hplace]
    exact hapart.split
  rw [writes_insert hplace hother]
  cases writtenBytes? refusals options tree path with
  | none => exact writes_eq_none hother
  | some bytes =>
    dsimp only
    rw [Function.update_self]

/-! ## All files, one after another -/

/-- The file that waits for its new name, if it is written. -/
def writtenFile? (refusals : Refusals) (options : Erasure.Options) (tree : FileTree)
    (path : String) :
    Option WrittenFile :=
  (attempt refusals options tree path).toOption.map (·.2)

/-- What went wrong with a file, if anything did. -/
def FileFailure.of? {α : Type} (path : String) : Except FileError α → Option FileFailure
  | .ok _ => none
  | .error error => some ⟨path, error⟩

/-- The failure of a file that is not written. -/
def failure? (refusals : Refusals) (options : Erasure.Options) (tree : FileTree) (path : String) :
    Option FileFailure :=
  FileFailure.of? path (attempt refusals options tree path)

/-- What the first half of a conversion comes to. -/
def writingOf (refusals : Refusals) (options : Erasure.Options) (tree : FileTree)
    (paths : List String) : Writing :=
  { tree := tree.overlay (writes refusals options tree paths)
    written := paths.filterMap (writtenFile? refusals options tree)
    failed := paths.filterMap (failure? refusals options tree) }

/-- A file is written into a tree in which other files were written before. -/
theorem writeConverted_overlay (h : LiesAt tree path folder name)
    (hbytes : bytes (folder ++ [name]) = none) :
    writeConverted refusals options (tree.overlay bytes) path =
      (attempt refusals options tree path).map fun converted =>
        (tree.overlay (Function.update bytes (folder ++ [name]) (some converted.1.toUTF8)),
          converted.2) := by
  unfold writeConverted attempt
  rw [convertFile_overlay h hbytes]
  cases convertFile options tree path with
  | error error => rfl
  | ok converted =>
    cases refusals.write path with
    | some fault => rfl
    | none =>
      dsimp only [bind, Except.bind]
      rw [write_overlay h]
      rfl

/-- One more file is dealt with. -/
theorem step_writingOf (h : LiesAt tree path folder name)
    (hapart : ∀ other ∈ paths, tree.resolve other ≠ .ok (folder ++ [name])) :
    (writingOf refusals options tree paths).step refusals options path =
      writingOf refusals options tree (paths ++ [path]) := by
  have hwrites : writes refusals options tree (paths ++ [path]) = _ :=
    writes_insert h.resolve (by simpa using hapart)
  rw [List.append_nil] at hwrites
  have hwrite : writeConverted refusals options (writingOf refusals options tree paths).tree path =
        _ :=
    writeConverted_overlay h (writes_eq_none hapart)
  unfold Writing.step
  rw [hwrite]
  unfold writingOf
  rw [hwrites, List.filterMap_append, List.filterMap_append]
  cases hattempt : attempt refusals options tree path with
  | error error =>
    simp only [writtenBytes?, writtenFile?, failure?, FileFailure.of?, hattempt, Except.toOption,
      Except.map, Option.map_none, List.filterMap_cons, List.filterMap_nil, List.append_nil]
  | ok converted =>
    simp only [writtenBytes?, writtenFile?, failure?, FileFailure.of?, hattempt, Except.toOption,
      Except.map, Option.map_some, List.filterMap_cons, List.filterMap_nil, List.append_nil]

/-- Files at places of their own are dealt with one by one, each as if it were alone. -/
theorem foldl_step_eq (hlies : ∀ path ∈ paths, ∃ folder name, LiesAt tree path folder name)
    (hapart : LieApart tree paths) :
    paths.foldl (Writing.step refusals options) { tree } =
      writingOf refusals options tree paths := by
  induction paths using List.reverseRecOn with
  | nil =>
    rw [List.foldl_nil, writingOf, show writes refusals options tree [] = fun _ => none from rfl,
      overlay_none]
    rfl
  | append_singleton paths path ih =>
    obtain ⟨hbefore, -, hlast⟩ := List.pairwise_append.1 hapart
    rw [List.forall_mem_append] at hlies
    obtain ⟨folder, name, hpath⟩ := hlies.2 path (List.mem_singleton_self path)
    rw [List.foldl_append, ih hlies.1 hbefore, List.foldl_cons, List.foldl_nil]
    refine step_writingOf hpath fun other hother => ?_
    rw [← hpath.resolve]
    exact hlast other hother path (List.mem_singleton_self path)

/-- What a conversion does once it has found its files. -/
theorem convertDirectory_eq_ok {report : Report} {after : FileTree}
    (h : convertDirectory refusals config tree = .ok (report, after)) :
    tree.hasDirectory config.root ∧ ∃ paths, discover config tree = .ok paths ∧
      convertPaths refusals config.options paths tree = (report, after) := by
  unfold convertDirectory at h
  split at h
  · cases h
  split at h
  · cases h
  rename_i hdirectory
  refine ⟨by simpa using hdirectory, ?_⟩
  cases hpaths : discover config tree with
  | error error => rw [hpaths] at h; cases h
  | ok paths =>
    rw [hpaths] at h
    exact ⟨paths, rfl, Except.ok.inj h⟩

/-- Files that are found in order are converted in this order. -/
theorem convertDirectory_of_sources (hroot : tree.hasDirectory config.root)
    (hsources : ((Selection.ofConfig config).toOption.bind fun selection =>
      (tree.at? config.root).toOption.map (selection.sources config.root "")) = some paths)
    (hsorted : paths.Pairwise fun path other => Path.le path other) :
    discover config tree = .ok paths ∧ convertDirectory refusals config tree =
      .ok (convertPaths refusals config.options paths tree) := by
  have hhas : tree.has config.root := by
    obtain ⟨place, hplace, hview⟩ := hasDirectory_iff.1 hroot
    exact has_iff.2 ⟨place, hplace, by rw [hview]; rfl⟩
  have hdiscover : discover config tree = .ok paths := by
    unfold discover
    cases hselection : Selection.ofConfig config with
    | error error => rw [hselection] at hsources; cases hsources
    | ok selection =>
      cases hentry : tree.at? config.root with
      | error fault => rw [hselection, hentry] at hsources; cases hsources
      | ok entry =>
        rw [hselection, hentry] at hsources
        have hpaths : selection.sources config.root "" entry = paths := Option.some.inj hsources
        dsimp only [bind, Except.bind]
        rw [hpaths, List.mergeSort_of_pairwise hsorted]
  refine ⟨hdiscover, ?_⟩
  unfold convertDirectory
  rw [hhas, hroot, hdiscover]
  rfl

end Writes

end Untype
