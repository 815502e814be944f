-- The conversion of a directory as work on files, one deed after another.
-- What is done stays done when the work fails, and a journal tells what
-- was tried.
import Untype.Command.Run
import Untype.Proofs.Files.Writes

namespace Untype.Command

/-! ## Deeds -/

/-- One thing to do to a file. -/
inductive Deed where
  | write (path : String) (content : ByteArray)
  | rename (path target : String)
  | remove (path : String)

namespace Deed

/-- The files once the deed is done. -/
def apply (tree : FileTree) : Deed → Except FileFault FileTree
  | write path content => tree.write path content
  | rename path target => tree.rename path target
  | remove path => tree.remove path

def isWrite : Deed → Bool
  | write _ _ => true
  | _ => false

/-- The reason of the system not to do it. -/
def refusal (refusals : Refusals) : Deed → Option FileFault
  | write path _ => refusals.write path
  | rename path _ => refusals.rename path
  | remove _ => none

/-- What the system does. -/
def answer (refusals : Refusals) (tree : FileTree) (deed : Deed) : Except FileFault FileTree :=
  match deed.refusal refusals with
  | some fault => .error fault
  | none => deed.apply tree

end Deed

/-- A deed that was tried, and the fault if it was not done. -/
structure Entry where
  deed : Deed
  fault : Option FileFault := none

namespace Entry

def isDone (entry : Entry) : Bool := entry.fault.isNone

/-- A write that failed. -/
def isFailedWrite (entry : Entry) : Bool := entry.deed.isWrite && !entry.isDone

/-- The files after an entry. Without the deed they stay as they are. -/
def replay (tree : FileTree) (entry : Entry) : Except FileFault FileTree :=
  if entry.isDone then entry.deed.apply tree else .ok tree

theorem foldlM_replay_of_failed {entries : List Entry} {tree : FileTree}
    (h : ∀ entry ∈ entries, entry.isFailedWrite) : entries.foldlM replay tree = .ok tree := by
  induction entries with
  | nil => rfl
  | cons entry rest ih =>
    have hentry : entry.isDone = false := by
      have hfailed := h entry List.mem_cons_self
      simp only [isFailedWrite, Bool.and_eq_true, Bool.not_eq_true'] at hfailed
      exact hfailed.2
    rw [List.foldlM_cons, replay, hentry]
    exact ih fun other hother => h other (List.mem_cons_of_mem _ hother)

end Entry

/-! ## Work -/

/-- The files as they are, with all that was tried on them and all that was asked for. -/
structure Journal where
  tree : FileTree
  entries : List Entry := []
  calls : List Call := []

/-- The journal goes on. -/
def Journal.extend (journal : Journal) (tree : FileTree) (entries : List Entry)
    (calls : List Call) : Journal :=
  ⟨tree, journal.entries ++ entries, journal.calls ++ calls⟩

@[simp] theorem Journal.extend_tree (journal : Journal) (tree : FileTree) (entries : List Entry)
    (calls : List Call) : (journal.extend tree entries calls).tree = tree := rfl

/-- Work that can fail, which undoes nothing. -/
abbrev Work (ε α : Type) := EStateM ε Journal α

namespace Work

variable {ε ε' α β : Type}

/-- The files at this point. -/
def look : Work ε FileTree := return (← get).tree

/-- Asks another program. -/
def ask (call : Call) : Work ε Unit :=
  modify fun journal => journal.extend journal.tree [] [call]

/-- Tries a deed. -/
def perform (refusals : Refusals) (deed : Deed) : Work FileFault Unit := fun journal =>
  match deed.answer refusals journal.tree with
  | .ok tree => .ok () (journal.extend tree [{ deed }] [])
  | .error fault => .error fault (journal.extend journal.tree [{ deed, fault }] [])

/-- The work, failed or not, with its result as a value. -/
def outcome (work : Work ε α) : Work ε' (Except ε α) := fun journal =>
  match work journal with
  | .ok a journal => .ok (.ok a) journal
  | .error error journal => .ok (.error error) journal

/-- The work with its errors in other words. -/
def adapt (f : ε → ε') (work : Work ε α) : Work ε' α := EStateM.adaptExcept f work

/-- A result and the journal at the end. -/
def toResult (journal : Journal) : Except ε α → EStateM.Result ε Journal α
  | .ok a => .ok a journal
  | .error error => .error error journal

/-- The work ends with a result. On the way it tries the entries and asks the calls, and the
deeds that are done lead from the files at the start to those at the end. -/
structure Ends (work : Work ε α) (start : Journal) (result : Except ε α) (tree : FileTree)
    (entries : List Entry) (calls : List Call) : Prop where
  run : work start = toResult (start.extend tree entries calls) result
  replay : entries.foldlM Entry.replay start.tree = .ok tree

section Rules

variable {start : Journal} {tree after : FileTree} {entries more : List Entry}
  {calls others : List Call} {result : Except ε α}
variable {work : Work ε α} {next : α → Work ε β} {deed : Deed}

theorem ends_known (result : Except ε α) :
    (ofExcept result : Work ε α).Ends start result start.tree [] [] := by
  have hsame : start = start.extend start.tree [] [] := by simp [Journal.extend]
  refine ⟨?_, rfl⟩
  rw [← hsame]
  cases result <;> rfl

theorem ends_pure (a : α) : (pure a : Work ε α).Ends start (.ok a) start.tree [] [] :=
  ends_known (.ok a)

theorem ends_throw (error : ε) :
    (throw error : Work ε α).Ends start (.error error) start.tree [] [] :=
  ends_known (.error error)

theorem Ends.bind {a : α} {result : Except ε β} (hwork : work.Ends start (.ok a) tree entries calls)
    (hnext : (next a).Ends (start.extend tree entries calls) result after more others) :
    (work >>= next).Ends start result after (entries ++ more) (calls ++ others) := by
  constructor
  · show EStateM.bind work next start = _
    rw [EStateM.bind, hwork.run]
    show next a _ = _
    rw [hnext.run]
    simp [Journal.extend]
  · rw [List.foldlM_append, hwork.replay]
    exact hnext.replay

theorem Ends.stop {error : ε} (hwork : work.Ends start (.error error) tree entries calls) :
    (work >>= next).Ends start (.error error) tree entries calls := by
  refine ⟨?_, hwork.replay⟩
  show EStateM.bind work next start = _
  rw [EStateM.bind, hwork.run]
  rfl

theorem Ends.outcome (h : work.Ends start result tree entries calls) :
    (work.outcome : Work ε' (Except ε α)).Ends start (.ok result) tree entries calls := by
  refine ⟨?_, h.replay⟩
  rw [Work.outcome, h.run]
  cases result <;> rfl

theorem Ends.adapt (h : work.Ends start result tree entries calls) (f : ε → ε') :
    (work.adapt f).Ends start (result.mapError f) tree entries calls := by
  refine ⟨?_, h.replay⟩
  rw [Work.adapt, EStateM.adaptExcept, h.run]
  cases result <;> rfl

theorem Ends.look {next : FileTree → Work ε α}
    (h : (next start.tree).Ends start result tree entries calls) :
    (Work.look >>= next).Ends start result tree entries calls := by
  refine ⟨?_, h.replay⟩
  rw [← h.run]
  rfl

theorem Ends.ask {next : Unit → Work ε α} {call : Call}
    (h : (next ()).Ends (start.extend start.tree [] [call]) result tree entries calls) :
    (Work.ask call >>= next).Ends start result tree entries (call :: calls) :=
  have hask : (Work.ask call : Work ε Unit).Ends start (.ok ()) start.tree [] [call] := ⟨rfl, rfl⟩
  hask.bind h

theorem Ends.known {next : β → Work ε α} {known : Except ε β} {b : β} (hknown : known = .ok b)
    (h : (next b).Ends start result tree entries calls) :
    (ofExcept known >>= next).Ends start result tree entries calls := by
  subst hknown
  exact h

theorem Ends.refused {next : β → Work ε α} {known : Except ε β} {error : ε}
    (hknown : known = .error error) :
    (ofExcept known >>= next).Ends start (.error error) start.tree [] [] := by
  subst hknown
  exact (ends_known _).stop

/-- Work after which nothing is left to do. -/
theorem Ends.finally {a : α} {b : β}
    (h : work.Ends start (.ok a) tree entries calls) (hnext : next a = pure b) :
    (work >>= next).Ends start (.ok b) tree entries calls := by
  have hdone : (next a).Ends (start.extend tree entries calls) (.ok b) tree [] [] := by
    rw [hnext]
    exact ends_pure b
  simpa using h.bind hdone

theorem ends_perform_ok {refusals : Refusals} (h : deed.answer refusals start.tree = .ok tree) :
    (perform refusals deed).Ends start (.ok ()) tree [{ deed }] [] := by
  constructor
  · rw [perform, h]
    rfl
  · unfold Deed.answer at h
    split at h
    · cases h
    · simpa [Entry.replay, Entry.isDone] using h

theorem ends_perform_error {refusals : Refusals} {fault : FileFault}
    (h : deed.answer refusals start.tree = .error fault) :
    (perform refusals deed).Ends start (.error fault) start.tree [{ deed, fault }] [] := by
  constructor
  · rw [perform, h]
    rfl
  · simp [Entry.replay, Entry.isDone, pure, Except.pure, bind, Except.bind]

end Rules

end Work

/-! ## A conversion -/

open Work

/-- Converts the file at a path and writes it back. -/
def writing (refusals : Refusals) (options : Erasure.Options) (path : String) :
    Work FileError WrittenFile := do
  let (code, file) ← ofExcept (convertFile options (← look) path)
  (perform refusals (.write path code.toUTF8)).adapt fun fault => .write fault.message
  return file

/-- Gives a written file its new name, if that is free in the tree. -/
def moving (refusals : Refusals) (file : WrittenFile) (tree : FileTree) : Work FileFault Unit :=
  if tree.has file.target then throw (.refused "target already exists")
  else perform refusals (.rename file.path file.target)

/-- Gives a written file its new name, if that is free now. -/
def naming (refusals : Refusals) (file : WrittenFile) : Work FileError Unit :=
  (look >>= moving refusals file).adapt fun fault => .rename file.target fault.message

/-- Writes one more file, or notes why not. -/
def writingStep (refusals : Refusals) (options : Erasure.Options)
    (done : List WrittenFile × List FileFailure) (path : String) :
    Work ConvertError (List WrittenFile × List FileFailure) := do
  match ← (writing refusals options path).outcome with
  | .ok file => return (done.1 ++ [file], done.2)
  | .error error => return (done.1, done.2 ++ [⟨path, error⟩])

/-- Renames one more file, or notes why not. -/
def namingStep (refusals : Refusals) (report : Report) (file : WrittenFile) :
    Work ConvertError Report := do
  let report := { report with warnings := report.warnings ++ file.warnings }
  match ← (naming refusals file).outcome with
  | .ok () =>
    return { report with converted := report.converted ++ [(file.path, file.target)] }
  | .error error =>
    return { report with renameFailed := report.renameFailed ++ [⟨file.path, error⟩] }

/-- Converts the files at these paths. -/
def convertingPaths (refusals : Refusals) (options : Erasure.Options) (paths : List String) :
    Work ConvertError Report := do
  let (written, failed) ← paths.foldlM (writingStep refusals options) ([], [])
  written.foldlM (namingStep refusals) { discovered := paths.length, failed }

/-- Converts the files of a directory. -/
def converting (refusals : Refusals) (config : Config) : Work ConvertError Report := do
  let tree ← look
  if !tree.has config.root then throw (.missingRoot config.root)
  else if !tree.hasDirectory config.root then throw (.notADirectory config.root)
  else
    let paths ← ofExcept (discover config tree)
    convertingPaths refusals config.options paths

section Conversions

variable (refusals : Refusals) (options : Erasure.Options) (start : Journal) {tree : FileTree}

theorem writeConverted_of_convertFile {path code : String} {file : WrittenFile}
    (h : convertFile options tree path = .ok (code, file)) :
    writeConverted refusals options tree path =
      match (Deed.write path code.toUTF8).answer refusals tree with
      | .ok tree => .ok (tree, file)
      | .error fault => .error (.write fault.message) := by
  rw [writeConverted, h]
  rfl

theorem renameWritten_of_free {file : WrittenFile} (h : tree.has file.target = false) :
    renameWritten refusals tree file =
      ((Deed.rename file.path file.target).answer refusals tree).mapError
        fun fault => .rename file.target fault.message := by
  simp only [renameWritten, h]
  rfl

/-- A file that is written takes one deed, and one that is not takes none. -/
theorem writing_ends (path : String) :
    ∃ entries, (∀ entry ∈ entries, entry.deed.isWrite) ∧
      match writeConverted refusals options start.tree path with
      | .ok (tree, file) =>
        (writing refusals options path).Ends start (.ok file) tree entries [] ∧
          entries.countP Entry.isDone = 1
      | .error error =>
        (writing refusals options path).Ends start (.error error) start.tree entries [] ∧
          entries.countP Entry.isDone = 0 := by
  cases hconvert : convertFile options start.tree path with
  | error error =>
    have hwrite : writeConverted refusals options start.tree path = .error error := by
      rw [writeConverted, hconvert]
      rfl
    rw [hwrite]
    exact ⟨[], by simp, Ends.look (Ends.refused hconvert), rfl⟩
  | ok converted =>
    obtain ⟨code, file⟩ := converted
    rw [writeConverted_of_convertFile _ _ hconvert]
    cases hanswer : (Deed.write path code.toUTF8).answer refusals start.tree with
    | error fault =>
      exact ⟨_, by simp [Deed.isWrite],
        Ends.look (Ends.known hconvert ((ends_perform_error hanswer).adapt _).stop), rfl⟩
    | ok tree =>
      exact ⟨_, by simp [Deed.isWrite],
        Ends.look (Ends.known hconvert (((ends_perform_ok hanswer).adapt _).finally rfl)), rfl⟩

/-- A file takes a deed at most to get its new name. -/
theorem naming_ends (file : WrittenFile) :
    ∃ entries, entries.length ≤ 1 ∧
      match renameWritten refusals start.tree file with
      | .ok tree => (naming refusals file).Ends start (.ok ()) tree entries []
      | .error error => (naming refusals file).Ends start (.error error) start.tree entries [] := by
  cases hfree : start.tree.has file.target with
  | true =>
    have hrename : renameWritten refusals start.tree file =
        .error (.rename file.target (FileFault.refused "target already exists").message) := by
      simp [renameWritten, hfree, Except.mapError]
    have hmoving : (moving refusals file start.tree).Ends start
        (.error (.refused "target already exists")) start.tree [] [] := by
      rw [moving, if_pos hfree]
      exact ends_throw _
    rw [hrename]
    exact ⟨_, by simp, hmoving.look.adapt _⟩
  | false =>
    have hmoving : moving refusals file start.tree =
        perform refusals (.rename file.path file.target) := if_neg (by simp [hfree])
    rw [renameWritten_of_free _ hfree]
    cases hanswer : (Deed.rename file.path file.target).answer refusals start.tree with
    | error fault =>
      have hperform := ends_perform_error hanswer
      rw [← hmoving] at hperform
      exact ⟨_, by simp, hperform.look.adapt _⟩
    | ok tree =>
      have hperform := ends_perform_ok hanswer
      rw [← hmoving] at hperform
      exact ⟨_, by simp, hperform.look.adapt _⟩

/-- A step of the first half. It takes a deed for each file that it writes. -/
theorem writingStep_ends (w : Writing) (path : String) (htree : start.tree = w.tree) :
    let after := w.step refusals options path
    ∃ entries, (writingStep refusals options (w.written, w.failed) path).Ends start
        (.ok (after.written, after.failed)) after.tree entries [] ∧
      (∀ entry ∈ entries, entry.deed.isWrite) ∧
      after.written.length = w.written.length + entries.countP Entry.isDone := by
  obtain ⟨entries, hwrites, hends⟩ := writing_ends refusals options start path
  rw [htree] at hends
  unfold Writing.step
  cases hwrite : writeConverted refusals options w.tree path with
  | ok written =>
    obtain ⟨tree, file⟩ := written
    simp only [hwrite] at hends
    obtain ⟨hends, hcount⟩ := hends
    exact ⟨entries, hends.outcome.finally rfl, hwrites, by simp [hcount]⟩
  | error error =>
    simp only [hwrite] at hends
    obtain ⟨hends, hcount⟩ := hends
    exact ⟨entries, hends.outcome.finally rfl, hwrites, by simp [hcount]⟩

/-- The first half of a conversion. -/
theorem foldlM_writingStep_ends (paths : List String) (w : Writing) (htree : start.tree = w.tree) :
    let after := paths.foldl (Writing.step refusals options) w
    ∃ entries, (paths.foldlM (writingStep refusals options) (w.written, w.failed)).Ends start
        (.ok (after.written, after.failed)) after.tree entries [] ∧
      (∀ entry ∈ entries, entry.deed.isWrite) ∧
      after.written.length = w.written.length + entries.countP Entry.isDone := by
  induction paths generalizing w start with
  | nil => exact ⟨[], htree ▸ ends_pure _, by simp, rfl⟩
  | cons path rest ih =>
    obtain ⟨first, hfirst, hwrites, hcount⟩ :=
      writingStep_ends refusals options start w path htree
    obtain ⟨others, hothers, hwrites', hcount'⟩ :=
      ih (start.extend _ first []) (w.step refusals options path) rfl
    refine ⟨first ++ others, ?_, ?_, ?_⟩
    · rw [List.foldlM_cons]
      exact hfirst.bind hothers
    · simp only [List.mem_append]
      rintro entry (hentry | hentry)
      · exact hwrites entry hentry
      · exact hwrites' entry hentry
    · rw [List.foldl_cons, hcount', hcount, List.countP_append, Nat.add_assoc]

theorem namingStep_ends (r : Renaming) (file : WrittenFile) (htree : start.tree = r.tree) :
    let after := r.step refusals file
    ∃ entries, (namingStep refusals r.report file).Ends start (.ok after.report) after.tree
        entries [] ∧ entries.length ≤ 1 := by
  obtain ⟨entries, hlength, hends⟩ := naming_ends refusals start file
  rw [htree] at hends
  unfold Renaming.step
  cases hrename : renameWritten refusals r.tree file with
  | ok tree | error error =>
    simp only [hrename] at hends
    exact ⟨entries, hends.outcome.finally rfl, hlength⟩

/-- The second half of a conversion. -/
theorem foldlM_namingStep_ends (files : List WrittenFile) (r : Renaming)
    (htree : start.tree = r.tree) :
    let after := files.foldl (Renaming.step refusals) r
    ∃ entries, (files.foldlM (namingStep refusals) r.report).Ends start (.ok after.report)
        after.tree entries [] ∧ entries.length ≤ files.length := by
  induction files generalizing r start with
  | nil => exact ⟨[], htree ▸ ends_pure _, Nat.le_refl _⟩
  | cons file rest ih =>
    obtain ⟨first, hfirst, hlength⟩ := namingStep_ends refusals start r file htree
    obtain ⟨others, hothers, hlength'⟩ :=
      ih (start.extend _ first []) (r.step refusals file) rfl
    refine ⟨first ++ others, ?_, ?_⟩
    · rw [List.foldlM_cons]
      exact hfirst.bind hothers
    · simp only [List.length_append, List.length_cons]
      omega

theorem length_foldl_writing (paths : List String) (w : Writing) :
    let after := paths.foldl (Writing.step refusals options) w
    after.written.length + after.failed.length =
      w.written.length + w.failed.length + paths.length := by
  induction paths generalizing w with
  | nil => rfl
  | cons path rest ih =>
    have hstep : (w.step refusals options path).written.length +
        (w.step refusals options path).failed.length =
          w.written.length + w.failed.length + 1 := by
      unfold Writing.step
      split <;> simp <;> omega
    have hrest := ih (w.step refusals options path)
    simp only [List.foldl_cons, List.length_cons] at hrest ⊢
    omega

theorem report_foldl_naming (files : List WrittenFile) (r : Renaming) :
    let after := files.foldl (Renaming.step refusals) r
    after.report.discovered = r.report.discovered ∧ after.report.failed = r.report.failed := by
  induction files generalizing r with
  | nil => exact ⟨rfl, rfl⟩
  | cons file rest ih =>
    obtain ⟨hdiscovered, hfailed⟩ := ih (r.step refusals file)
    have hstep : (r.step refusals file).report.discovered = r.report.discovered ∧
        (r.step refusals file).report.failed = r.report.failed := by
      unfold Renaming.step
      split <;> exact ⟨rfl, rfl⟩
    exact ⟨hdiscovered.trans hstep.1, hfailed.trans hstep.2⟩

theorem written_eq_nil_of_isTotalFailure {paths : List String}
    (h : (convertPaths refusals options paths tree).1.isTotalFailure) :
    (paths.foldl (Writing.step refusals options) { tree }).written = [] := by
  have hlength := length_foldl_writing refusals options paths { tree }
  unfold convertPaths at h
  generalize paths.foldl (Writing.step refusals options) { tree } = w at h hlength ⊢
  obtain ⟨hdiscovered, hfailed⟩ := report_foldl_naming refusals w.written
    { tree := w.tree, report := { discovered := paths.length, failed := w.failed } }
  simp only [Report.isTotalFailure, Bool.and_eq_true, beq_iff_eq, hdiscovered, hfailed] at h
  simp only [h.2, List.length_nil, Nat.zero_add] at hlength
  exact List.eq_nil_of_length_eq_zero (by omega)

/-- The conversion of files goes as its model says. If all of them fail, so did every write
that was tried, and nothing else was. -/
theorem convertingPaths_ends (paths : List String) :
    let after := convertPaths refusals options paths start.tree
    ∃ entries, (convertingPaths refusals options paths).Ends start (.ok after.1) after.2
        entries [] ∧
      (after.1.isTotalFailure → ∀ entry ∈ entries, entry.isFailedWrite) := by
  obtain ⟨writes, hwriting, hwrites, hcount⟩ :=
    foldlM_writingStep_ends refusals options start paths { tree := start.tree } rfl
  have hnone := @written_eq_nil_of_isTotalFailure refusals options start.tree paths
  unfold convertPaths at hnone ⊢
  generalize paths.foldl (Writing.step refusals options) { tree := start.tree } = w at *
  obtain ⟨names, hnaming, hlength⟩ :=
    foldlM_namingStep_ends refusals (start.extend w.tree writes [])
    w.written { tree := w.tree, report := { discovered := paths.length, failed := w.failed } } rfl
  refine ⟨writes ++ names, hwriting.bind hnaming, fun htotal entry hentry => ?_⟩
  simp only [hnone htotal, List.length_nil, Nat.zero_add, Nat.le_zero_eq] at hcount hlength
  rw [List.eq_nil_of_length_eq_zero hlength, List.append_nil] at hentry
  have hfailed := List.countP_eq_zero.1 hcount.symm entry hentry
  simp [Entry.isFailedWrite, hwrites entry hentry, hfailed]

/-- Every error of the conversion of a directory comes before the first deed. -/
theorem converting_ends_error {config : Config} {error : ConvertError}
    (h : convertDirectory refusals config start.tree = .error error) :
    (converting refusals config).Ends start (.error error) start.tree [] [] := by
  refine Ends.look ?_
  unfold convertDirectory at h
  split at h
  next hroot =>
    cases h
    rw [if_pos hroot]
    exact ends_throw _
  next hroot =>
    rw [if_neg hroot]
    split at h
    next hdirectory =>
      cases h
      rw [if_pos hdirectory]
      exact ends_throw _
    next hdirectory =>
      rw [if_neg hdirectory]
      cases hpaths : discover config start.tree with
      | ok paths => rw [hpaths] at h; cases h
      | error _ => rw [hpaths] at h; cases h; exact Ends.refused rfl

theorem converting_ends_ok {config : Config} {report : Report}
    (h : convertDirectory refusals config start.tree = .ok (report, tree)) :
    ∃ entries, (converting refusals config).Ends start (.ok report) tree entries [] ∧
      (report.isTotalFailure → ∀ entry ∈ entries, entry.isFailedWrite) := by
  obtain ⟨hdirectory, paths, hpaths, hconvert⟩ := convertDirectory_eq_ok h
  have hroot : start.tree.has config.root := by
    obtain ⟨place, hplace, hview⟩ := FileTree.hasDirectory_iff.1 hdirectory
    exact FileTree.has_iff.2 ⟨place, hplace, by rw [hview]; rfl⟩
  obtain ⟨entries, hends, hfailed⟩ := convertingPaths_ends refusals config.options start paths
  rw [hconvert] at hends hfailed
  refine ⟨entries, Ends.look ?_, hfailed⟩
  rw [if_neg (by simp [hroot]), if_neg (by simp [hdirectory])]
  exact Ends.known hpaths hends

end Conversions

end Untype.Command
