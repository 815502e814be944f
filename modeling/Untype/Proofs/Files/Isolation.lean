-- What a conversion of a directory does to each file, whatever becomes of
-- the others: no file is half done, lost or overwritten.
import Untype.Proofs.Files.Writes

namespace Untype

open Untype.Path
open FileTree (LiesAt)
open Selection (LieApart)

variable {report : Report} {options : Erasure.Options} {tree after start : FileTree}
  {path code name target fresh : String} {file : WrittenFile} {refusals : Refusals}
  {folder folder' : List String} {content : ByteArray}
variable {entry : String × String} {place : List String} {bytes : ByteArray}

/-! ## Converted files -/

/-- The code is what becomes of the file at the path. -/
def Converts (options : Erasure.Options) (tree : FileTree) (path code : String) : Prop :=
  ∃ bytes text converted, tree.read path = .ok bytes ∧ Text.decode bytes = .ok text ∧
    convert path text options = .ok converted ∧ code = converted.code

/-- The paths of the files that are written, with new names or without. -/
def Report.writtenPaths (report : Report) : List String :=
  report.converted.map (·.1) ++ report.renameFailed.map (·.path)

theorem Report.mem_writtenPaths_of_converted
    (h : entry ∈ report.converted) : entry.1 ∈ report.writtenPaths :=
  List.mem_append_left _ (List.mem_map_of_mem h)

theorem mapError_bind_eq_ok {ε ε' α β : Type} {x : Except ε α} {f : ε → ε'} {g : α → Except ε' β}
    {b : β} (h : (x.mapError f >>= g) = .ok b) : ∃ a, x = .ok a ∧ g a = .ok b := by
  cases x with
  | error error => cases h
  | ok a => exact ⟨a, rfl, h⟩

theorem convertFile_eq_ok (h : convertFile options tree path = .ok (code, file)) :
    file.path = path ∧ Path.target path = .ok file.target ∧ Converts options tree path code := by
  unfold convertFile at h
  obtain ⟨target, htarget, h⟩ := mapError_bind_eq_ok h
  obtain ⟨bytes, hbytes, h⟩ := mapError_bind_eq_ok h
  obtain ⟨text, htext, h⟩ := mapError_bind_eq_ok h
  obtain ⟨converted, hconverted, h⟩ := mapError_bind_eq_ok h
  cases h
  exact ⟨rfl, htarget, bytes, text, converted, hbytes, htext, hconverted, rfl⟩

/-- A file that is written has its code, and a target. -/
theorem attempt_eq_ok (h : attempt refusals options tree path = .ok (code, file)) :
    file.path = path ∧ Path.target path = .ok file.target ∧ Converts options tree path code := by
  unfold attempt at h
  cases hconvert : convertFile options tree path with
  | error error => rw [hconvert] at h; cases h
  | ok converted =>
    rw [hconvert] at h
    cases hrefused : refusals.write path with
    | some fault => rw [hrefused] at h; cases h
    | none =>
      rw [hrefused] at h
      cases h
      exact convertFile_eq_ok hconvert

/-! ## New names -/

/-- The file of the tree `start` at a path has moved to the target, and its place is free now. -/
structure Moved (start after : FileTree) (path target : String) (folder : List String)
    (name fresh : String) : Prop where
  path : ∃ directory, path = join directory name ∧ target = join directory fresh ∧
    start.resolve directory = .ok folder
  isName : isName name ∧ isName fresh
  isConvertible : isConvertible name ∧ isConvertible fresh = false
  old : start.view (folder ++ [fresh]) = none ∧ after.view (folder ++ [name]) = none
  new : ∃ content, start.view (folder ++ [name]) = some (some content) ∧
    after.view (folder ++ [fresh]) = some (some content)

/-- A file gets its new name: that is free, and nothing else in the tree changes. -/
theorem renameWritten_eq_ok {directory : String} (hname : isName name)
    (hpath : file.path = join directory name) (hdirectory : tree.resolve directory = .ok folder)
    (hfile : tree.view (folder ++ [name]) = some (some content))
    (htarget : Path.target file.path = .ok file.target)
    (h : renameWritten refusals tree file = .ok after) :
    isConvertible name ∧ ∃ fresh, file.target = join directory fresh ∧
      isName fresh ∧ isConvertible fresh = false ∧ tree.view (folder ++ [fresh]) = none ∧
      after.view = Function.update (Function.update tree.view (folder ++ [name]) none)
        (folder ++ [fresh]) (some (some content)) := by
  have hlies : LiesAt tree file.path folder name :=
    ⟨⟨directory, hpath, hdirectory⟩, hname, content, hfile⟩
  have hnonempty := FileTree.ne_empty_of_resolve hdirectory
  rw [hpath] at htarget
  obtain ⟨hconvertible, hfresh⟩ := target_join hnonempty hname htarget
  refine ⟨hconvertible, ?_⟩
  have hrename : tree.has file.target = false ∧ tree.rename file.path file.target = .ok after := by
    unfold renameWritten at h
    cases hhas : tree.has file.target with
    | true => rw [hhas] at h; cases h
    | false =>
      rw [hhas] at h
      cases hrefused : refusals.rename file.path with
      | some fault => rw [hrefused] at h; cases h
      | none =>
        rw [hrefused] at h
        refine ⟨rfl, ?_⟩
        cases hrenamed : tree.rename file.path file.target with
        | error fault => simp [hrenamed, Except.mapError] at h
        | ok renamed => simpa [hrenamed, Except.mapError] using h
  obtain ⟨hhas, hrename⟩ := hrename
  unfold FileTree.rename at hrename
  rw [hlies.resolve] at hrename
  dsimp only [bind, Except.bind] at hrename
  rcases hfresh with hparent | ⟨fresh, htarget', hname', hconvertible'⟩
  · rw [hparent, fileName?, splitName?_parent hnonempty] at hrename
    cases hrename
  · rw [htarget', fileName?_join hnonempty hname', List.dropLast_concat] at hrename
    have hfree : tree.view (folder ++ [fresh]) = none := by
      cases hview : tree.view (folder ++ [fresh]) with
      | none => rfl
      | some held =>
        have hsome : (tree.view (folder ++ [fresh])).isSome := by rw [hview]; rfl
        have hresolve : tree.resolve file.target = .ok (folder ++ [fresh]) := by
          rw [htarget', FileTree.resolve_join hdirectory hlies.directory hname', if_pos hsome]
        exact absurd (FileTree.has_iff.2 ⟨_, hresolve, hsome⟩) (by simp [hhas])
    refine ⟨fresh, htarget', hname', hconvertible', hfree, ?_⟩
    rw [← Except.ok.inj hrename]
    exact FileTree.view_move hfile hfree

theorem Moved.resolve (h : Moved start after path target folder name fresh) :
    start.resolve path = .ok (folder ++ [name]) := by
  obtain ⟨directory, hpath, -, hdirectory⟩ := h.path
  obtain ⟨content, hcontent, -⟩ := h.new
  exact LiesAt.resolve ⟨⟨directory, hpath, hdirectory⟩, h.isName.1, content, hcontent⟩

theorem place_ne (hname : isConvertible name) (hfresh : isConvertible fresh = false) :
    folder ++ [name] ≠ folder' ++ [fresh] := by
  intro heq
  obtain rfl : name = fresh := by simpa using congrArg List.getLast? heq
  rw [hfresh] at hname
  cases hname

/-- A file that has moved stays where it is when another one gets its new name. -/
theorem Moved.rename {state : FileTree} {name' fresh' : String}
    (h : Moved start state path target folder' name' fresh')
    (hsource : (start.view (folder ++ [name])).isSome) (hfresh : Path.isConvertible fresh = false)
    (hfree : state.view (folder ++ [fresh]) = none)
    (hafter : after.view = Function.update (Function.update state.view (folder ++ [name]) none)
      (folder ++ [fresh]) (some (some content))) :
    Moved start after path target folder' name' fresh' := by
  obtain ⟨content', hcontent', hnew⟩ := h.new
  refine ⟨h.path, h.isName, h.isConvertible, ⟨h.old.1, ?_⟩, content', hcontent', ?_⟩
  · rw [hafter, Function.update_of_ne (place_ne h.isConvertible.1 hfresh)]
    by_cases hsame : folder' ++ [name'] = folder ++ [name]
    · rw [hsame, Function.update_self]
    · rw [Function.update_of_ne hsame, h.old.2]
  · have hne : folder' ++ [fresh'] ≠ folder ++ [name] := by
      intro heq
      rw [← heq, h.old.1] at hsource
      cases hsource
    have htaken : folder' ++ [fresh'] ≠ folder ++ [fresh] := by
      intro heq
      rw [heq, hfree] at hnew
      cases hnew
    rw [hafter, Function.update_of_ne htaken, Function.update_of_ne hne, hnew]

/-- Some written files were tried to rename. -/
structure IsRenaming (first : Renaming) (done : List WrittenFile) (state : Renaming) : Prop where
  discovered : state.report.discovered = first.report.discovered
  failed : state.report.failed = first.report.failed
  once : state.report.writtenPaths.Perm (done.map (·.path))
  moved : ∀ entry ∈ state.report.converted, (∃ file ∈ done, entry = (file.path, file.target)) ∧
    ∃ folder name fresh, Moved first.tree state.tree entry.1 entry.2 folder name fresh
  kept : ∀ place, (first.tree.view place).isSome →
    (∀ entry ∈ state.report.converted, first.tree.resolve entry.1 ≠ .ok place) →
      state.tree.view place = first.tree.view place

namespace IsRenaming

variable {first state : Renaming} {done : List WrittenFile}

theorem directories (h : IsRenaming first done state) (place : List String)
    (hplace : first.tree.view place = some none) : state.tree.view place = some none := by
  rw [← hplace]
  refine h.kept place (by rw [hplace]; rfl) fun entry hentry heq => ?_
  obtain ⟨-, folder, name, fresh, hmoved⟩ := h.moved entry hentry
  obtain ⟨content, hcontent, -⟩ := hmoved.new
  cases hmoved.resolve.symm.trans heq
  rw [hcontent] at hplace
  cases hplace

/-- What a new name takes was free from the start. -/
theorem free (h : IsRenaming first done state) (hconvertible : isConvertible fresh = false)
    (hfree : state.tree.view (folder ++ [fresh]) = none) :
    first.tree.view (folder ++ [fresh]) = none := by
  cases hview : first.tree.view (folder ++ [fresh]) with
  | none => rfl
  | some held =>
    have hkept := h.kept (folder ++ [fresh]) (by rw [hview]; rfl) fun entry hentry heq => by
      obtain ⟨-, folder', name', fresh', hmoved⟩ := h.moved entry hentry
      exact place_ne hmoved.isConvertible.1 hconvertible
        (Except.ok.inj (hmoved.resolve.symm.trans heq))
    rw [hfree, hview] at hkept
    cases hkept

/-- One more file is tried. -/
theorem step (h : IsRenaming first done state) (hlies : LiesAt first.tree file.path folder name)
    (htarget : Path.target file.path = .ok file.target)
    (hapart : ∀ other ∈ done, first.tree.resolve other.path ≠ first.tree.resolve file.path)
    (refusals : Refusals) : IsRenaming first (done ++ [file]) (state.step refusals file) := by
  obtain ⟨directory, hpath, hdirectory⟩ := hlies.path
  obtain ⟨content, hcontent⟩ := hlies.file
  have hview : state.tree.view (folder ++ [name]) = some (some content) := by
    rw [← hcontent]
    refine h.kept _ (by rw [hcontent]; rfl) fun entry hentry heq => ?_
    obtain ⟨⟨other, hother, rfl⟩, -⟩ := h.moved entry hentry
    exact hapart other hother (heq.trans hlies.resolve.symm)
  have hfolder := h.directories _ hlies.directory
  have hdirectory' : state.tree.resolve directory = .ok folder :=
    FileTree.resolve_of_directories hdirectory (by rw [hfolder]; rfl) h.directories
  have hdone : ∀ entry ∈ state.report.converted,
      ∃ other ∈ done ++ [file], entry = (other.path, other.target) := by
    intro entry hentry
    obtain ⟨⟨other, hother, hentry⟩, -⟩ := h.moved entry hentry
    exact ⟨other, List.mem_append_left _ hother, hentry⟩
  unfold Renaming.step
  dsimp only
  cases hrename : renameWritten refusals state.tree file with
  | error error =>
    refine ⟨h.discovered, h.failed, ?_, fun entry hentry => ?_, h.kept⟩
    · dsimp only [Report.writtenPaths]
      rw [List.map_append, List.map_append, ← List.append_assoc]
      exact h.once.append_right _
    · exact ⟨hdone entry hentry, (h.moved entry hentry).2⟩
  | ok after =>
    obtain ⟨hconvertible, fresh, htarget', hfresh, hconvertible', hfree, hafter⟩ :=
      renameWritten_eq_ok hlies.isName hpath hdirectory' hview htarget hrename
    have hfree' := h.free hconvertible' hfree
    refine ⟨h.discovered, h.failed, ?_, fun entry hentry => ?_, fun place hplace hentries => ?_⟩
    · dsimp only [Report.writtenPaths]
      rw [List.map_append, List.map_append, List.append_assoc]
      refine (List.Perm.append_left _ List.perm_append_comm).trans ?_
      rw [← List.append_assoc]
      exact h.once.append_right _
    · rcases List.mem_append.1 hentry with hentry | hentry
      · obtain ⟨-, folder', name', fresh', hmoved⟩ := h.moved entry hentry
        exact ⟨hdone entry hentry, folder', name', fresh',
          hmoved.rename (by rw [hcontent]; rfl) hconvertible' hfree hafter⟩
      · obtain rfl := List.mem_singleton.1 hentry
        have hold : after.view (folder ++ [name]) = none := by
          rw [hafter, Function.update_of_ne (place_ne hconvertible hconvertible'),
            Function.update_self]
        have hnew : after.view (folder ++ [fresh]) = some (some content) := by
          rw [hafter, Function.update_self]
        exact ⟨⟨file, List.mem_append_right _ (List.mem_singleton_self file), rfl⟩,
          folder, name, fresh, ⟨directory, hpath, htarget', hdirectory⟩, ⟨hlies.isName, hfresh⟩,
          ⟨hconvertible, hconvertible'⟩, ⟨hfree', hold⟩, content, hcontent, hnew⟩
    · rw [List.forall_mem_append] at hentries
      have hsource : place ≠ folder ++ [name] := by
        rintro rfl
        exact hentries.2 _ (List.mem_singleton_self _) hlies.resolve
      have htaken : place ≠ folder ++ [fresh] := by
        rintro rfl
        rw [hfree'] at hplace
        cases hplace
      dsimp only
      rw [hafter, Function.update_of_ne htaken, Function.update_of_ne hsource]
      exact h.kept place hplace hentries.1

/-- All written files are tried, one after another. -/
theorem foldl_step (hconverted : first.report.converted = [])
    (hrenameFailed : first.report.renameFailed = []) {written : List WrittenFile}
    (hlies : ∀ file ∈ written, Path.target file.path = .ok file.target ∧
      ∃ folder name, LiesAt first.tree file.path folder name)
    (hapart : LieApart first.tree (written.map (·.path))) (refusals : Refusals) :
    IsRenaming first written (written.foldl (Renaming.step refusals) first) := by
  induction written using List.reverseRecOn with
  | nil =>
    refine ⟨rfl, rfl, ?_, ?_, fun _ _ _ => rfl⟩
    · simp [Report.writtenPaths, hconverted, hrenameFailed]
    · rw [List.foldl_nil, hconverted]
      exact nofun
  | append_singleton written file ih =>
    rw [List.map_append] at hapart
    obtain ⟨hbefore, -, hlast⟩ := List.pairwise_append.1 hapart
    rw [List.forall_mem_append] at hlies
    obtain ⟨htarget, folder, name, hfile⟩ := hlies.2 file (List.mem_singleton_self file)
    rw [List.foldl_append]
    refine (ih hlies.1 hbefore).step hfile htarget (fun other hother => ?_) refusals
    exact hlast other.path (List.mem_map_of_mem hother) file.path (List.mem_singleton_self _)

/-- A file that has not moved is read as before. -/
theorem read (h : IsRenaming first done state)
    (hresolve : first.tree.resolve path = .ok place)
    (hview : first.tree.view place = some (some bytes))
    (hstays : ∀ entry ∈ state.report.converted, first.tree.resolve entry.1 ≠ .ok place) :
    state.tree.read path = .ok bytes := by
  have hkept : state.tree.view place = some (some bytes) := by
    rw [← hview]
    exact h.kept place (by rw [hview]; rfl) hstays
  refine FileTree.read_eq_ok.2 ⟨place, ?_, hkept⟩
  exact FileTree.resolve_of_directories hresolve (by rw [hkept]; rfl) h.directories

/-- A file that has moved is found at its target only. -/
theorem read_target (h : IsRenaming first done state)
    (hentry : entry ∈ state.report.converted) :
    state.tree.has entry.1 = false ∧ first.tree.has entry.2 = false ∧
      ∃ bytes, first.tree.read entry.1 = .ok bytes ∧ state.tree.read entry.2 = .ok bytes := by
  obtain ⟨-, folder, name, fresh, hmoved⟩ := h.moved entry hentry
  obtain ⟨directory, hpath, htarget, hdirectory⟩ := hmoved.path
  obtain ⟨bytes, hbytes, hbytes'⟩ := hmoved.new
  have hfolder : first.tree.view folder = some none :=
    FileTree.view_of_below (by rw [hbytes]; rfl)
  have hfolder' := h.directories folder hfolder
  have hdirectory' : state.tree.resolve directory = .ok folder :=
    FileTree.resolve_of_directories hdirectory (by rw [hfolder']; rfl) h.directories
  -- A name that its directory does not hold leads nowhere.
  have hmissing : ∀ {tree : FileTree} {missing : String}, tree.resolve directory = .ok folder →
      tree.view folder = some none → Path.isName missing →
      tree.view (folder ++ [missing]) = none → tree.has (join directory missing) = false := by
    intro tree missing hresolve hview hname hnone
    refine Bool.eq_false_iff.2 fun hhas => ?_
    obtain ⟨place, hplace, -⟩ := FileTree.has_iff.1 hhas
    rw [FileTree.resolve_join hresolve hview hname, hnone] at hplace
    cases hplace
  refine ⟨?_, ?_, bytes, FileTree.read_eq_ok.2 ⟨_, hmoved.resolve, hbytes⟩, ?_⟩
  · rw [hpath]
    exact hmissing hdirectory' hfolder' hmoved.isName.1 hmoved.old.2
  · rw [htarget]
    exact hmissing hdirectory hfolder hmoved.isName.2 hmoved.old.1
  · refine FileTree.read_eq_ok.2 ⟨_, ?_, hbytes'⟩
    rw [htarget, FileTree.resolve_join hdirectory' hfolder' hmoved.isName.2, hbytes']
    rfl

end IsRenaming

/-! ## Directories -/

section Directories

variable {refusals : Refusals} {options : Erasure.Options} {tree : FileTree} {paths : List String}
variable {failure : FileFailure}

theorem written_paths :
    ((paths.filterMap (writtenFile? refusals options tree)).map (·.path)) =
      paths.filter fun path => (attempt refusals options tree path).isOk := by
  rw [List.map_filterMap, ← List.filterMap_eq_filter]
  refine congrArg (List.filterMap · paths) (funext fun path => ?_)
  cases hattempt : attempt refusals options tree path with
  | error error =>
    simp [writtenFile?, Option.guard, hattempt, Except.toOption, Except.isOk, Except.toBool]
  | ok converted =>
    simp [writtenFile?, Option.guard, hattempt, (attempt_eq_ok hattempt).1, Except.toOption,
      Except.isOk, Except.toBool]

theorem failed_paths :
    ((paths.filterMap (failure? refusals options tree)).map (·.path)) =
      paths.filter fun path => !(attempt refusals options tree path).isOk := by
  rw [List.map_filterMap, ← List.filterMap_eq_filter]
  refine congrArg (List.filterMap · paths) (funext fun path => ?_)
  cases hattempt : attempt refusals options tree path <;>
    simp [failure?, FileFailure.of?, Option.guard, hattempt, Except.isOk, Except.toBool]

theorem attempt_of_mem_written (h : file ∈ (writingOf refusals options tree paths).written) :
    ∃ path ∈ paths, ∃ code, attempt refusals options tree path = .ok (code, file) := by
  obtain ⟨path, hpath, hwritten⟩ := List.mem_filterMap.1 h
  refine ⟨path, hpath, ?_⟩
  unfold writtenFile? at hwritten
  cases hattempt : attempt refusals options tree path with
  | error error => rw [hattempt] at hwritten; cases hwritten
  | ok converted =>
    rw [hattempt] at hwritten
    cases hwritten
    exact ⟨converted.1, rfl⟩

theorem attempt_of_mem_failed (h : failure ∈ (writingOf refusals options tree paths).failed) :
    failure.path ∈ paths ∧ attempt refusals options tree failure.path = .error failure.error := by
  obtain ⟨path, hpath, hfailed⟩ := List.mem_filterMap.1 h
  unfold failure? at hfailed
  cases hattempt : attempt refusals options tree path with
  | error error =>
    rw [hattempt] at hfailed
    cases hfailed
    exact ⟨hpath, hattempt⟩
  | ok converted => rw [hattempt] at hfailed; cases hfailed

/-- Files that lie apart are converted, with this report, and this is what they leave. -/
structure IsConversion (refusals : Refusals) (options : Erasure.Options) (paths : List String)
    (tree : FileTree) (report : Report) (after : FileTree) : Prop where
  lies : ∀ path ∈ paths, ∃ folder name, LiesAt tree path folder name
  apart : LieApart tree paths
  result : convertPaths refusals options paths tree = (report, after)

namespace IsConversion

variable (h : IsConversion refusals options paths tree report after)

include h

theorem resolve_writingOf (hpath : path ∈ paths) :
    (writingOf refusals options tree paths).tree.resolve path = tree.resolve path := by
  obtain ⟨folder, name, hfile⟩ := h.lies path hpath
  exact (hfile.overlay _).resolve.trans hfile.resolve.symm

/-- The second half of a conversion starts with what the first one has written. -/
theorem isRenaming :
    IsRenaming { tree := (writingOf refusals options tree paths).tree
                 report := { discovered := paths.length
                             failed := (writingOf refusals options tree paths).failed } }
      (writingOf refusals options tree paths).written { tree := after, report := report } := by
  obtain ⟨rfl, rfl⟩ := Prod.mk.inj h.result.symm
  rw [foldl_step_eq h.lies h.apart]
  refine IsRenaming.foldl_step rfl rfl (fun file hfile => ?_) ?_ refusals
  · obtain ⟨path, hpath, code, hattempt⟩ := attempt_of_mem_written hfile
    obtain ⟨hsame, htarget, -⟩ := attempt_eq_ok hattempt
    obtain ⟨folder, name, hfile⟩ := h.lies path hpath
    rw [hsame]
    exact ⟨htarget, folder, name, hfile.overlay _⟩
  · have hpaths : (writingOf refusals options tree paths).written.map (·.path) = _ :=
      written_paths
    rw [hpaths]
    refine (h.apart.filter _).imp_of_mem fun hfirst hsecond hne => ?_
    rw [h.resolve_writingOf (List.mem_filter.1 hfirst).1,
      h.resolve_writingOf (List.mem_filter.1 hsecond).1]
    exact hne

theorem written_perm : report.writtenPaths.Perm
    (paths.filter fun path => (attempt refusals options tree path).isOk) := by
  rw [← written_paths]
  exact h.isRenaming.once

theorem listed_perm : (report.converted.map (·.1) ++ report.failed.map (·.path) ++
    report.renameFailed.map (·.path)).Perm paths := by
  let isWritten path := (attempt refusals options tree path).isOk
  have hfailed : report.failed.map (·.path) = paths.filter fun path => !isWritten path := by
    rw [← failed_paths]
    exact congrArg _ h.isRenaming.failed
  refine List.Perm.trans ?_ (List.filter_append_perm isWritten paths)
  refine List.Perm.trans ?_ (h.written_perm.append_right _)
  rw [hfailed, Report.writtenPaths, List.append_assoc, List.append_assoc]
  exact List.Perm.append_left _ List.perm_append_comm

/-- What is written is the code of the file. -/
theorem attempt_of_mem (hwritten : path ∈ report.writtenPaths) :
    path ∈ paths ∧ ∃ code file, attempt refusals options tree path = .ok (code, file) := by
  obtain ⟨hpath, hok⟩ := List.mem_filter.1 (h.written_perm.mem_iff.1 hwritten)
  refine ⟨hpath, ?_⟩
  cases hattempt : attempt refusals options tree path with
  | error error => rw [hattempt] at hok; cases hok
  | ok converted => exact ⟨converted.1, converted.2, rfl⟩

theorem view_writingOf (hpath : path ∈ paths)
    (hattempt : attempt refusals options tree path = .ok (code, file)) :
    ∃ place, tree.resolve path = .ok place ∧
      (writingOf refusals options tree paths).tree.view place = some (some code.toUTF8) := by
  obtain ⟨folder, name, hfile⟩ := h.lies path hpath
  obtain ⟨content, hcontent⟩ := hfile.file
  refine ⟨folder ++ [name], hfile.resolve, ?_⟩
  rw [writingOf, FileTree.view_overlay, hcontent, writes_of_mem h.apart hpath hfile.resolve,
    writtenBytes?, hattempt]
  rfl

/-- A place that no written file had keeps its bytes. -/
theorem read_of_not_written
    (hresolve : tree.resolve path = .ok place) (hview : tree.view place = some (some bytes))
    (hother : ∀ written ∈ report.writtenPaths, tree.resolve written ≠ .ok place) :
    after.read path = .ok bytes := by
  have hnone : writes refusals options tree paths place = none := by
    by_cases hsource : ∃ source ∈ paths, tree.resolve source = .ok place
    · -- A source that is not written has failed.
      obtain ⟨source, hmem, hplace⟩ := hsource
      rw [writes_of_mem h.apart hmem hplace, writtenBytes?]
      cases hattempt : attempt refusals options tree source with
      | error error => rfl
      | ok converted =>
        refine absurd hplace (hother source (h.written_perm.mem_iff.2 ?_))
        exact List.mem_filter.2 ⟨hmem, by rw [hattempt]; rfl⟩
    · push Not at hsource
      exact writes_eq_none hsource
  have hview' : (writingOf refusals options tree paths).tree.view place = some (some bytes) := by
    rw [writingOf, FileTree.view_overlay, hview, hnone]
    rfl
  have hresolve' : (writingOf refusals options tree paths).tree.resolve path = .ok place :=
    FileTree.resolve_overlay _ hresolve (by rw [hview]; rfl)
  refine h.isRenaming.read hresolve' hview' fun entry hentry hplace => ?_
  have hwritten := Report.mem_writtenPaths_of_converted hentry
  have hpath := (h.attempt_of_mem hwritten).1
  exact hother entry.1 hwritten ((h.resolve_writingOf hpath).symm.trans hplace)

theorem read_of_mem_failed (hfailed : failure ∈ report.failed) :
    attempt refusals options tree failure.path = .error failure.error ∧
      ∃ bytes, tree.read failure.path = .ok bytes ∧ after.read failure.path = .ok bytes := by
  rw [h.isRenaming.failed] at hfailed
  obtain ⟨hpath, hattempt⟩ := attempt_of_mem_failed hfailed
  obtain ⟨folder, name, hfile⟩ := h.lies _ hpath
  obtain ⟨bytes, hbytes⟩ := hfile.file
  refine ⟨hattempt, bytes, FileTree.read_eq_ok.2 ⟨_, hfile.resolve, hbytes⟩, ?_⟩
  refine h.read_of_not_written hfile.resolve hbytes fun written hwritten heq => ?_
  obtain ⟨hmem, code, file, hok⟩ := h.attempt_of_mem hwritten
  rw [h.apart.eq_of_resolve hpath hmem (heq.trans hfile.resolve.symm), hattempt] at hok
  cases hok

/-- A file that is written and not renamed holds its code. -/
theorem read_of_mem_renameFailed (hfailed : failure ∈ report.renameFailed) :
    ∃ code, Converts options tree failure.path code ∧
      after.read failure.path = .ok code.toUTF8 := by
  obtain ⟨hpath, code, file, hattempt⟩ :=
    h.attempt_of_mem (List.mem_append_right _ (List.mem_map_of_mem hfailed))
  obtain ⟨place, hplace, hview⟩ := h.view_writingOf hpath hattempt
  refine ⟨code, (attempt_eq_ok hattempt).2.2, ?_⟩
  refine h.isRenaming.read ((h.resolve_writingOf hpath).trans hplace) hview
    fun entry hentry heq => ?_
  have hentry' := (h.attempt_of_mem (Report.mem_writtenPaths_of_converted hentry)).1
  -- A renamed file at this place would be listed twice.
  have hsame : entry.1 = failure.path := by
    refine h.apart.eq_of_resolve hpath hentry' ?_
    rw [← h.resolve_writingOf hentry', hplace]
    exact heq
  have hnodup := h.written_perm.nodup_iff.2 (h.apart.nodup.filter _)
  exact (List.nodup_append.1 hnodup).2.2 _ (List.mem_map_of_mem hentry) _
    (List.mem_map_of_mem hfailed) hsame

/-- A renamed file holds its code at its target. -/
theorem read_of_mem_converted (hentry : entry ∈ report.converted) :
    Path.target entry.1 = .ok entry.2 ∧ after.has entry.1 = false ∧ tree.has entry.2 = false ∧
      ∃ code, Converts options tree entry.1 code ∧ after.read entry.2 = .ok code.toUTF8 := by
  obtain ⟨hleft, hfree, bytes, hbytes, hread⟩ := h.isRenaming.read_target hentry
  obtain ⟨⟨file, hfile, rfl⟩, -⟩ := h.isRenaming.moved entry hentry
  obtain ⟨path, hpath, code, hattempt⟩ := attempt_of_mem_written hfile
  obtain ⟨rfl, htarget, hconverts⟩ := attempt_eq_ok hattempt
  obtain ⟨place, hplace, hview⟩ := h.view_writingOf hpath hattempt
  refine ⟨htarget, hleft, ?_, code, hconverts, ?_⟩
  · refine Bool.eq_false_iff.2 fun hhas => Bool.eq_false_iff.1 hfree ?_
    obtain ⟨taken, htaken, hsome⟩ := FileTree.has_iff.1 hhas
    refine FileTree.has_iff.2 ⟨taken, FileTree.resolve_overlay _ htaken hsome, ?_⟩
    rw [writingOf, FileTree.view_overlay, Option.isSome_map]
    exact hsome
  · obtain ⟨place', hplace', hview'⟩ := FileTree.read_eq_ok.1 hbytes
    obtain rfl := Except.ok.inj (((h.resolve_writingOf hpath).trans hplace).symm.trans hplace')
    obtain rfl : code.toUTF8 = bytes := by simpa using hview.symm.trans hview'
    exact hread

end IsConversion

end Directories

/-- What the report says of each file is what became of it. -/
structure Report.IsFaithful (refusals : Refusals) (config : Config) (before after : FileTree)
    (report : Report) : Prop where
  /-- Every file that is found is listed once. -/
  once : ∃ paths, discover config before = .ok paths ∧ paths.Nodup ∧
    report.discovered = paths.length ∧
    (report.converted.map (·.1) ++ report.failed.map (·.path) ++
      report.renameFailed.map (·.path)).Perm paths
  /-- A file that fails does so by itself, and is as it was. -/
  failed : ∀ failure ∈ report.failed,
    attempt refusals config.options before failure.path = .error failure.error ∧
    ∃ bytes, before.read failure.path = .ok bytes ∧ after.read failure.path = .ok bytes
  /-- A converted file has left its path. Its code stands at its target, which was free. -/
  converted : ∀ entry ∈ report.converted, Path.target entry.1 = .ok entry.2 ∧
    after.has entry.1 = false ∧ before.has entry.2 = false ∧
    ∃ code, Converts config.options before entry.1 code ∧ after.read entry.2 = .ok code.toUTF8
  /-- A file that cannot be renamed holds its code. -/
  renameFailed : ∀ failure ∈ report.renameFailed, ∃ code,
    Converts config.options before failure.path code ∧
      after.read failure.path = .ok code.toUTF8
  /-- Every other file is as it was. -/
  others : ∀ path place bytes, before.resolve path = .ok place → before.read path = .ok bytes →
    (∀ written ∈ report.writtenPaths, before.resolve written ≠ .ok place) →
    after.read path = .ok bytes
  totalFailure : report.isTotalFailure ↔ 0 < report.discovered ∧ report.writtenCount = 0

/-- Every file of a directory is converted, or left as it is, or converted under its old name, and
the report says which. No other file changes. -/
theorem convertDirectory_isFaithful {refusals : Refusals} {config : Config}
    (tree : FileTree.Proper) {after : FileTree} {report : Report}
    (h : convertDirectory refusals config tree = .ok (report, after)) :
    report.IsFaithful refusals config tree after := by
  obtain ⟨hroot, paths, hpaths, hconvert⟩ := convertDirectory_eq_ok h
  obtain ⟨hlies, hapart⟩ := discover_lie tree hroot hpaths
  have hconversion : IsConversion refusals config.options paths tree report after :=
    ⟨hlies, hapart, hconvert⟩
  have hdiscovered : report.discovered = paths.length := hconversion.isRenaming.discovered
  have honce := hconversion.listed_perm
  refine ⟨⟨paths, hpaths, hapart.nodup, hdiscovered, honce⟩,
    fun failure => hconversion.read_of_mem_failed, fun entry => hconversion.read_of_mem_converted,
    fun failure => hconversion.read_of_mem_renameFailed,
    fun path place bytes hplace hread hother => ?_, ?_⟩
  · obtain ⟨place', hplace', hview⟩ := FileTree.read_eq_ok.1 hread
    cases hplace.symm.trans hplace'
    exact hconversion.read_of_not_written hplace hview hother
  · have hlength := honce.length_eq
    simp only [List.length_append, List.length_map] at hlength
    simp only [Report.isTotalFailure, Report.writtenCount, Bool.and_eq_true, decide_eq_true_eq,
      beq_iff_eq]
    omega

/-- Two files with one target, a file whose target is taken, and a file that cannot be converted. -/
def FileTree.clashes : FileTree :=
  .directory "" [.directory "p"
    [.file "a.TS" "let x: number = 1".toUTF8, .file "a.ts" "let y: string".toUTF8,
      .file "b.js" "kept()".toUTF8, .file "b.ts" "type T = 0".toUTF8, .file "c.ts" "\x7d".toUTF8]]

/-- The first of two files takes their target, and a file that was there before stays. -/
theorem convertDirectory_clashes :
    ∃ report after, convertDirectory {} { root := "p" } .clashes = .ok (report, after) ∧
      report.converted = [("p/a.TS", "p/a.js")] ∧ report.failed.map (·.path) = ["p/c.ts"] ∧
      report.renameFailed.map (·.path) = ["p/a.ts", "p/b.ts"] ∧
      after.read "p/b.js" = .ok "kept()".toUTF8 ∧
      report.IsFaithful {} { root := "p" } .clashes after := by
  obtain ⟨-, hconvert⟩ : discover { root := "p" } .clashes =
        .ok ["p/a.TS", "p/a.ts", "p/b.ts", "p/c.ts"] ∧
      convertDirectory {} { root := "p" } .clashes = .ok _ :=
    convertDirectory_of_sources (by decide +kernel) (by decide +kernel) (by decide +kernel)
  exact ⟨_, _, hconvert, by decide +kernel, by decide +kernel, by decide +kernel, by decide +kernel,
    convertDirectory_isFaithful ⟨_, by decide +kernel⟩ hconvert⟩

end Untype
