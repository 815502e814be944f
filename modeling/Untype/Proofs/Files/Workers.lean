-- Files converted by workers side by side. However their steps fall, the
-- tree and the report are those of one file after another, and no file gets
-- its new name before all files are dealt with.
import Mathlib.Algebra.GroupWithZero.Nat
import Mathlib.Data.List.Basic
import Untype.Proofs.Files.Writes

namespace Untype

/-! ## Workers -/

/-- How far a worker has come with its file. -/
inductive Progress where
  | waiting
  /-- The file is read and converted. -/
  | holding (code : String) (file : WrittenFile)
  /-- The file is written, or it failed. -/
  | finished (outcome : Except FileError WrittenFile)

structure Worker where
  path : String
  progress : Progress := .waiting

namespace Worker

def isFinished (worker : Worker) : Bool :=
  match worker.progress with
  | .finished _ => true
  | _ => false

/-- The file that the worker has written. -/
def written? (worker : Worker) : Option WrittenFile :=
  match worker.progress with
  | .finished (.ok file) => some file
  | _ => none

def failure? (worker : Worker) : Option FileFailure :=
  match worker.progress with
  | .finished outcome => FileFailure.of? worker.path outcome
  | _ => none

/-- The number of steps that the worker can still take. -/
def work (worker : Worker) : Nat :=
  match worker.progress with
  | .waiting => 2
  | .holding _ _ => 1
  | .finished _ => 0

end Worker

/-- A worker has converted its file, or failed to. -/
def Progress.ofConverted : Except FileError (String × WrittenFile) → Progress
  | .ok (code, file) => .holding code file
  | .error error => .finished (.error error)

/-- A worker reads its file and converts it. -/
def Progress.ofRead (options : Erasure.Options) (tree : FileTree) (path : String) : Progress :=
  .ofConverted (convertFile options tree path)

/-- A worker writes its file: the tree after that, and the outcome. -/
def writeBack (refusals : Refusals) (tree : FileTree) (path code : String) (file : WrittenFile) :
    FileTree × Except FileError WrittenFile :=
  let written : Except FileFault FileTree := match refusals.write path with
    | some fault => .error fault
    | none => tree.write path code.toUTF8
  match written with
  | .ok tree => (tree, .ok file)
  | .error fault => (tree, .error (.write fault.message))

/-! ## Sessions -/

/-- A conversion on its way. -/
inductive Session where
  | writing (tree : FileTree) (workers : List Worker)
  | naming (state : Renaming) (waiting : List WrittenFile)

/-- What happens in a conversion, one thing at a time. -/
inductive Event where
  | read (path : String)
  | write (path : String)
  /-- The outcomes are put together. -/
  | collect
  | rename (path : String)
deriving DecidableEq

namespace Session

/-- Every file waits for its worker. -/
def start (tree : FileTree) (paths : List String) : Session :=
  .writing tree (paths.map (Worker.mk · .waiting))

/-- The outcomes of all workers, in the order of the files. -/
def collected (tree : FileTree) (workers : List Worker) : Session :=
  .naming
    { tree
      report := { discovered := workers.length, failed := workers.filterMap Worker.failure? } }
    (workers.filterMap Worker.written?)

/-- A step of a conversion. Any worker may be the next one to move. -/
inductive Moves (refusals : Refusals) (options : Erasure.Options) :
    Session → Event → Session → Prop where
  | read (tree : FileTree) (front : List Worker) (path : String) (back : List Worker) :
    Moves refusals options (.writing tree (front ++ ⟨path, .waiting⟩ :: back)) (.read path)
      (.writing tree (front ++ ⟨path, .ofRead options tree path⟩ :: back))
  | write (tree : FileTree) (front : List Worker) (path code : String) (file : WrittenFile)
    (back : List Worker) :
    Moves refusals options (.writing tree (front ++ ⟨path, .holding code file⟩ :: back))
      (.write path) (.writing (writeBack refusals tree path code file).1
        (front ++ ⟨path, .finished (writeBack refusals tree path code file).2⟩ :: back))
  | collect {tree : FileTree} {workers : List Worker} :
    (∀ worker ∈ workers, worker.isFinished) →
    Moves refusals options (.writing tree workers) .collect (collected tree workers)
  | rename (state : Renaming) (file : WrittenFile) (waiting : List WrittenFile) :
    Moves refusals options (.naming state (file :: waiting)) (.rename file.path)
      (.naming (state.step refusals file) waiting)

/-- Several steps, with what happens in them. -/
inductive Runs (refusals : Refusals) (options : Erasure.Options) (first : Session) :
    List Event → Session → Prop where
  | refl : Runs refusals options first [] first
  | step {events : List Event} {event : Event} {session next : Session} :
    Runs refusals options first events session → Moves refusals options session event next →
    Runs refusals options first (events ++ [event]) next

/-- The number of steps that are left at most. -/
def work : Session → Nat
  | .writing _ workers => (workers.map Worker.work).sum + workers.length + 1
  | .naming _ waiting => waiting.length

end Session

section Sessions

open FileTree (LiesAt)
open Selection (LieApart)

variable {refusals : Refusals} {options : Erasure.Options} {tree : FileTree} {paths : List String}
variable {session next : Session} {event : Event} {events : List Event} {path : String}
  {front back : List Worker} {worker : Worker} {current : FileTree}

/-! ## Every run ends -/

theorem Session.Moves.work_lt (h : session.Moves refusals options event next) :
    next.work < session.work := by
  cases h with
  | read current front path back =>
    have hread : (Worker.mk path (.ofRead options current path)).work < 2 := by
      rw [Progress.ofRead]
      cases convertFile options current path with
      | ok converted => exact Nat.lt_succ_self 1
      | error error => exact Nat.zero_lt_two
    simp only [Session.work, List.map_append, List.map_cons, List.sum_append, List.sum_cons,
      List.length_append, List.length_cons, Worker.work] at hread ⊢
    omega
  | write current front path code file back =>
    simp only [Session.work, List.map_append, List.map_cons, List.sum_append, List.sum_cons,
      List.length_append, List.length_cons, Worker.work]
    omega
  | collect hfinished =>
    rename_i current workers
    have hlength := List.length_filterMap_le Worker.written? workers
    simp only [Session.collected, Session.work]
    omega
  | rename state file waiting => exact Nat.lt_succ_self _

theorem Session.Runs.length_le {first : Session} (h : first.Runs refusals options events session) :
    events.length + session.work ≤ first.work := by
  induction h with
  | refl => simp
  | step _ hmoves ih =>
    have hlt := hmoves.work_lt
    rw [List.length_append, List.length_singleton]
    omega

/-- A conversion goes on until all written files were tried to rename. -/
theorem Session.exists_moves (session : Session) :
    (∃ state, session = .naming state []) ∨
      ∃ event next, session.Moves refusals options event next := by
  cases session with
  | naming state waiting =>
    cases waiting with
    | nil => exact .inl ⟨state, rfl⟩
    | cons file waiting => exact .inr ⟨_, _, .rename state file waiting⟩
  | writing current workers =>
    refine .inr ?_
    by_cases hfinished : ∀ worker ∈ workers, worker.isFinished
    · exact ⟨_, _, .collect hfinished⟩
    · simp only [not_forall] at hfinished
      obtain ⟨⟨path, progress⟩, hworker, hprogress⟩ := hfinished
      obtain ⟨front, back, rfl⟩ := List.append_of_mem hworker
      cases progress with
      | waiting => exact ⟨_, _, .read current front path back⟩
      | holding code file => exact ⟨_, _, .write current front path code file back⟩
      | finished outcome => exact absurd rfl hprogress

/-! ## What every step keeps -/

/-- The file at the path was tried to write, or could not be converted. -/
def Resolves (options : Erasure.Options) (tree : FileTree) (events : List Event) (path : String) :
    Prop :=
  .write path ∈ events ∨ .read path ∈ events ∧ ∃ error, convertFile options tree path = .error error

theorem Resolves.append (h : Resolves options tree events path) (more : List Event) :
    Resolves options tree (events ++ more) path :=
  h.imp (List.mem_append_left more) (And.imp_left (List.mem_append_left more))

/-- The worker has what it would have if it were alone with the tree. -/
def Worker.Agrees (refusals : Refusals) (options : Erasure.Options) (tree : FileTree)
    (worker : Worker) : Prop :=
  match worker.progress with
  | .waiting => True
  | .holding code file => convertFile options tree worker.path = .ok (code, file)
  | .finished outcome => outcome = (attempt refusals options tree worker.path).map (·.2)

/-- The paths whose workers are done. -/
def finishedPaths (workers : List Worker) : List String :=
  (workers.filter Worker.isFinished).map Worker.path

/-- While files are written, the tree is the old one with the files of the workers that are done. -/
structure IsWriting (refusals : Refusals) (options : Erasure.Options) (tree : FileTree)
    (paths : List String) (events : List Event) (current : FileTree) (workers : List Worker) :
    Prop where
  ofPaths : workers.map Worker.path = paths
  overlaid : current = tree.overlay (writes refusals options tree (finishedPaths workers))
  agree : ∀ worker ∈ workers, worker.Agrees refusals options tree
  resolved : ∀ worker ∈ workers, worker.isFinished → Resolves options tree events worker.path

/-- A conversion of these paths is here after these events. -/
def Session.IsAfter (refusals : Refusals) (options : Erasure.Options) (tree : FileTree)
    (paths : List String) (events : List Event) : Session → Prop
  | .writing current workers => IsWriting refusals options tree paths events current workers
  | .naming state waiting =>
    waiting.foldl (Renaming.step refusals) state =
        { tree := (convertPaths refusals options paths tree).2
          report := (convertPaths refusals options paths tree).1 } ∧
      ∀ path ∈ paths, Resolves options tree events path

theorem finishedPaths_split :
    finishedPaths (front ++ worker :: back) = if worker.isFinished then
      finishedPaths front ++ worker.path :: finishedPaths back
    else finishedPaths front ++ finishedPaths back := by
  unfold finishedPaths
  rw [List.filter_append, List.filter_cons]
  split <;> simp

/-- One worker goes on, and the tree with it. -/
theorem IsWriting.advance {after : FileTree} {next : Worker}
    (h : IsWriting refusals options tree paths events current (front ++ worker :: back))
    (hpath : next.path = worker.path) (hagrees : next.Agrees refusals options tree)
    (hresolves : next.isFinished → Resolves options tree (events ++ [event]) next.path)
    (hafter : after = tree.overlay
      (writes refusals options tree (finishedPaths (front ++ next :: back)))) :
    IsWriting refusals options tree paths (events ++ [event]) after (front ++ next :: back) := by
  have hagree := List.forall_mem_append.1 h.agree
  have hresolved := List.forall_mem_append.1 h.resolved
  refine ⟨?_, hafter, ?_, ?_⟩
  · rw [← h.ofPaths]
    simp [hpath]
  · exact List.forall_mem_append.2 ⟨hagree.1,
      List.forall_mem_cons.2 ⟨hagrees, (List.forall_mem_cons.1 hagree.2).2⟩⟩
  · refine List.forall_mem_append.2 ⟨fun other hother hdone =>
      (hresolved.1 other hother hdone).append _, List.forall_mem_cons.2 ⟨hresolves,
        fun other hother hdone => ?_⟩⟩
    exact ((List.forall_mem_cons.1 hresolved.2).2 other hother hdone).append _

/-- A worker that is done has the outcome of its file. -/
theorem Worker.Agrees.outcome (h : worker.Agrees refusals options tree)
    (hfinished : worker.isFinished) :
    worker.written? = writtenFile? refusals options tree worker.path ∧
      worker.failure? = Untype.failure? refusals options tree worker.path := by
  obtain ⟨path, progress⟩ := worker
  cases progress with
  | waiting | holding => cases hfinished
  | finished outcome =>
    have houtcome : outcome = (attempt refusals options tree path).map (·.2) := h
    unfold written? failure? writtenFile? Untype.failure?
    rw [houtcome]
    cases attempt refusals options tree path <;> exact ⟨rfl, rfl⟩

/-- What the workers have done when they are all done. -/
theorem IsWriting.collected {workers : List Worker}
    (h : IsWriting refusals options tree paths events current workers)
    (hfinished : ∀ worker ∈ workers, worker.isFinished) :
    current = (writingOf refusals options tree paths).tree ∧
      workers.filterMap Worker.written? = (writingOf refusals options tree paths).written ∧
      workers.filterMap Worker.failure? = (writingOf refusals options tree paths).failed := by
  have hpaths : finishedPaths workers = paths := by
    rw [finishedPaths, List.filter_eq_self.2 hfinished, h.ofPaths]
  have houtcome := fun worker hworker => (h.agree worker hworker).outcome (hfinished worker hworker)
  refine ⟨by rw [h.overlaid, hpaths]; rfl, ?_, ?_⟩
  · dsimp only [writingOf]
    rw [← h.ofPaths, List.filterMap_map]
    exact List.filterMap_congr fun worker hworker => (houtcome worker hworker).1
  · dsimp only [writingOf]
    rw [← h.ofPaths, List.filterMap_map]
    exact List.filterMap_congr fun worker hworker => (houtcome worker hworker).2

section Steps

variable (hlies : ∀ path ∈ paths, ∃ folder name, LiesAt tree path folder name)
  (hapart : LieApart tree paths)

include hlies hapart

/-- What the others have written is apart from the file of a worker that is not done. -/
theorem IsWriting.alone
    (h : IsWriting refusals options tree paths events current (front ++ worker :: back))
    (hworker : worker.isFinished = false) :
    ∃ folder name, LiesAt tree worker.path folder name ∧
      (∀ other ∈ finishedPaths front ++ finishedPaths back,
        tree.resolve other ≠ .ok (folder ++ [name])) ∧
      current =
        tree.overlay
          (writes refusals options tree (finishedPaths front ++ finishedPaths back)) := by
  obtain ⟨folder, name, hpath⟩ := hlies worker.path (by rw [← h.ofPaths]; simp)
  refine ⟨folder, name, hpath, ?_, by simpa [finishedPaths_split, hworker] using h.overlaid⟩
  have hsubset : ∀ workers : List Worker, finishedPaths workers ⊆ workers.map Worker.path :=
    fun workers => List.map_subset _ List.filter_sublist.subset
  rw [← h.ofPaths, List.map_append, List.map_cons] at hapart
  obtain ⟨hfront, hback⟩ := List.forall_mem_append.1 hapart.split
  rw [← hpath.resolve]
  exact List.forall_mem_append.2 ⟨fun other hother => hfront other (hsubset front hother),
    fun other hother => hback other (hsubset back hother)⟩

/-- A worker reads its file. -/
theorem IsWriting.read
    (h : IsWriting refusals options tree paths events current (front ++ ⟨path, .waiting⟩ :: back)) :
    IsWriting refusals options tree paths (events ++ [.read path]) current
      (front ++ ⟨path, .ofRead options current path⟩ :: back) := by
  obtain ⟨folder, name, hpath, hother, hcurrent⟩ := h.alone hlies hapart rfl
  have hconvert : convertFile options current path = convertFile options tree path := by
    rw [hcurrent]
    exact convertFile_overlay hpath (writes_eq_none hother)
  rw [Progress.ofRead, hconvert]
  cases hread : convertFile options tree path with
  | ok converted =>
    refine h.advance rfl hread nofun ?_
    rw [hcurrent, finishedPaths_split]
    rfl
  | error error =>
    have hattempt : attempt refusals options tree path = .error error := by
      rw [attempt, hread]
      rfl
    refine h.advance rfl ?_ (fun _ => .inr ⟨by simp, error, hread⟩) ?_
    · exact (congrArg (Except.map _) hattempt).symm
    · rw [hcurrent, finishedPaths_split]
      have hwrites : writes refusals options tree _ = _ := writes_insert hpath.resolve hother
      rw [writtenBytes?, hattempt] at hwrites
      exact congrArg (tree.overlay ·) hwrites.symm

/-- A worker writes its file. -/
theorem IsWriting.write {code : String} {file : WrittenFile}
    (h : IsWriting refusals options tree paths events current
      (front ++ ⟨path, .holding code file⟩ :: back)) :
    IsWriting refusals options tree paths (events ++ [.write path])
      (writeBack refusals current path code file).1
      (front ++ ⟨path, .finished (writeBack refusals current path code file).2⟩ :: back) := by
  obtain ⟨folder, name, hpath, hother, hcurrent⟩ := h.alone hlies hapart rfl
  have hread : convertFile options tree path = .ok (code, file) :=
    h.agree ⟨path, .holding code file⟩ (by simp)
  have hwrites : writes refusals options tree _ = _ := writes_insert hpath.resolve hother
  have hresolves : Resolves options tree (events ++ [.write path]) path := .inl (by simp)
  cases hrefused : refusals.write path with
  | some fault =>
    have hattempt : attempt refusals options tree path = .error (.write fault.message) := by
      rw [attempt, hread, hrefused]
      rfl
    rw [writtenBytes?, hattempt] at hwrites
    rw [writeBack, hrefused]
    refine h.advance rfl (congrArg (Except.map _) hattempt).symm (fun _ => hresolves) ?_
    rw [finishedPaths_split]
    exact hcurrent.trans (congrArg (tree.overlay ·) hwrites.symm)
  | none =>
    have hattempt : attempt refusals options tree path = .ok (code, file) := by
      rw [attempt, hread, hrefused]
      rfl
    rw [writtenBytes?, hattempt] at hwrites
    rw [writeBack, hrefused]
    dsimp only
    rw [hcurrent, write_overlay hpath]
    dsimp only
    have hagrees : (Worker.mk path (.finished (.ok file))).Agrees refusals options tree := by
      rw [Worker.Agrees, hattempt]
      rfl
    refine h.advance rfl hagrees (fun _ => hresolves) ?_
    rw [finishedPaths_split]
    exact congrArg (tree.overlay ·) hwrites.symm

/-- Every step of a conversion leads on as it should. -/
theorem Session.IsAfter.moves (h : session.IsAfter refusals options tree paths events)
    (hmoves : session.Moves refusals options event next) :
    next.IsAfter refusals options tree paths (events ++ [event]) := by
  cases hmoves with
  | read current front path back => exact IsWriting.read hlies hapart h
  | write current front path code file back => exact IsWriting.write hlies hapart h
  | collect hfinished =>
    rename_i current workers
    have h : IsWriting refusals options tree paths events current workers := h
    obtain ⟨hcurrent, hwritten, hfailed⟩ := h.collected hfinished
    have hlength : workers.length = paths.length := by rw [← h.ofPaths, List.length_map]
    refine ⟨?_, fun path hpath => ?_⟩
    · rw [convertPaths, foldl_step_eq hlies hapart, hcurrent, hwritten, hfailed, hlength]
    · rw [← h.ofPaths] at hpath
      obtain ⟨worker, hworker, rfl⟩ := List.mem_map.1 hpath
      exact (h.resolved worker hworker (hfinished worker hworker)).append _
  | rename state file waiting => exact ⟨h.1, fun path hpath => (h.2 path hpath).append _⟩

/-- A run of a conversion is always where it should be, and no file is renamed before all files are
dealt with. -/
theorem Session.Runs.isAfter
    (h : (Session.start tree paths).Runs refusals options events session) :
    session.IsAfter refusals options tree paths events ∧
      ∀ before path later, events = before ++ .rename path :: later →
        ∀ source ∈ paths, Resolves options tree before source := by
  induction h with
  | refl =>
    have hwaiting : ∀ worker ∈ paths.map (Worker.mk · .waiting), worker.progress = .waiting := by
      simp
    have hnone : ∀ worker ∈ paths.map (Worker.mk · .waiting), worker.isFinished = false := by
      simp [Worker.isFinished]
    refine ⟨⟨by simp [Function.comp_def], ?_, fun worker hworker => ?_,
      fun worker hworker hdone => ?_⟩, by simp⟩
    · have hempty : finishedPaths (paths.map (Worker.mk · .waiting)) = [] := by
        rw [finishedPaths, List.filter_eq_nil_iff.2 (by simpa using hnone), List.map_nil]
      rw [hempty]
      exact (FileTree.overlay_none tree).symm
    · rw [Worker.Agrees, hwaiting worker hworker]
      trivial
    · rw [hnone worker hworker] at hdone
      cases hdone
  | step hruns hmoves ih =>
    refine ⟨ih.1.moves hlies hapart hmoves, fun before path later heq => ?_⟩
    rcases later.eq_nil_or_concat with rfl | ⟨later, last, rfl⟩
    · obtain ⟨rfl, hevent⟩ := List.append_inj' heq rfl
      obtain rfl := (List.cons.inj hevent).1
      cases hmoves with
      | rename state file waiting => exact ih.1.2
    · rw [List.concat_eq_append, ← List.cons_append, ← List.append_assoc] at heq
      obtain ⟨hbefore, -⟩ := List.append_inj' heq rfl
      exact ih.2 before path later hbefore

end Steps

/-- However the steps of the workers fall, the run ends after so many steps, all files are dealt
with before the first one is renamed, and the tree and the report at the end are those of a
conversion of one file after another. -/
theorem Session.runs_agree {config : Config} (tree : FileTree.Proper) {report : Report}
    {after : FileTree} (h : convertDirectory refusals config tree = .ok (report, after)) :
    ∃ paths, discover config tree = .ok paths ∧ ∀ events session,
      (Session.start tree paths).Runs refusals config.options events session →
        events.length ≤ 3 * paths.length + 1 ∧
        (∀ before path later, events = before ++ .rename path :: later →
          ∀ source ∈ paths, Resolves config.options tree before source) ∧
        ((∀ event next, ¬ session.Moves refusals config.options event next) →
          session = .naming { tree := after, report } []) := by
  obtain ⟨hroot, paths, hpaths, hconvert⟩ := convertDirectory_eq_ok h
  obtain ⟨hlies, hapart⟩ := discover_lie tree hroot hpaths
  refine ⟨paths, hpaths, fun events session hruns => ?_⟩
  obtain ⟨hafter, hbarrier⟩ := hruns.isAfter hlies hapart
  refine ⟨?_, hbarrier, fun hstuck => ?_⟩
  · have hlength := hruns.length_le
    have hwork : (Session.start tree paths).work = 3 * paths.length + 1 := by
      simp only [Session.start, Session.work, List.map_map, Function.comp_def, Worker.work,
        List.map_const', List.sum_replicate_nat, List.length_map]
      omega
    omega
  · obtain ⟨state, rfl⟩ := session.exists_moves.resolve_right fun ⟨event, next, hmoves⟩ =>
      hstuck event next hmoves
    have hstate := hafter.1
    rw [hconvert] at hstate
    exact congrArg (Session.naming · []) hstate

end Sessions

/-- A directory with two files, the second of which cannot be converted. -/
def FileTree.twoFiles : FileTree :=
  .directory "" [.directory "p"
    [.file "a.ts" "let x: number = 1".toUTF8, .file "b.tsx" "\x7d".toUTF8]]

/-- The first file is converted and the second one is not, in every order of the steps. -/
theorem Session.runs_agree_two :
    ∃ report after, convertDirectory {} { root := "p" } .twoFiles = .ok (report, after) ∧
      report.converted = [("p/a.ts", "p/a.js")] ∧ report.failed.map (·.path) = ["p/b.tsx"] ∧
      ∃ paths, discover { root := "p" } .twoFiles = .ok paths ∧ paths = ["p/a.ts", "p/b.tsx"] ∧
        ∀ events session, (Session.start .twoFiles paths).Runs {} {} events session →
          (∀ event next, ¬ session.Moves {} {} event next) →
            session = .naming { tree := after, report } [] := by
  obtain ⟨hpaths, hconvert⟩ : discover { root := "p" } .twoFiles = .ok ["p/a.ts", "p/b.tsx"] ∧
      convertDirectory {} { root := "p" } .twoFiles = .ok _ :=
    convertDirectory_of_sources (by decide +kernel) (by decide +kernel) (by decide +kernel)
  obtain ⟨paths, hpaths', hruns⟩ := Session.runs_agree ⟨_, by decide +kernel⟩ hconvert
  obtain rfl := Except.ok.inj (hpaths.symm.trans hpaths')
  exact ⟨_, _, hconvert, by decide +kernel, by decide +kernel, _, hpaths, rfl,
    fun events session hrun => (hruns events session hrun).2.2⟩

end Untype
