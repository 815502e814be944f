-- What a run does to the files, for every way in which it can end: a run
-- that stops with an error has tried nothing yet, and one that converts no
-- file tidies nothing up.
import Untype.Proofs.Command.Journal

namespace Untype.Command

open Work

/-! ## A run as work -/

/-- Makes sure that the branch is one for a conversion, unless the command says otherwise. -/
def settlingBranch (a : Arguments) (c : Collaborators) : Work RunError (Option BranchAction) := do
  if a.has .noBranch then return none
  else
    ask .currentBranch
    let current ← ofExcept (c.currentBranch.mapError .currentBranch)
    if isConversionBranch current then return some (.kept current)
    else
      ask (.createBranch conversionBranch)
      ofExcept ((c.createBranch conversionBranch).mapError .createBranch)
      return some (.created conversionBranch)

/-- Removes the packages that are of use for types only, and says which. -/
def removingPackages (c : Collaborators) (directory : String) : Work String (List String) := do
  ask .packages
  let names ← ofExcept (packagesOf (← look) directory)
  let targets := names.filter isTypePackage
  if targets.isEmpty then return []
  else
    ask (.removePackages targets)
    ofExcept (c.removePackages targets)
    return targets

/-- Takes away the file that sets up the types, and says whether there was one. -/
def removingConfig (directory : String) : Work FileFault Bool := do
  match ← (perform {} (.remove (Path.join directory typeConfigFile))).outcome with
  | .ok () => return true
  | .error .missing => return false
  | .error fault => throw fault

/-- The packages go, unless the command says otherwise. -/
def tidyingPackages (a : Arguments) (c : Collaborators) (summary : Summary) :
    Work RunError Summary := do
  if a.has .noPackages then return summary
  else
    match ← (removingPackages c a.directory).outcome with
    | .ok removed => return { summary with removedPackages := removed }
    | .error cause =>
      let problem := "failed to remove TypeScript packages: " ++ cause
      return { summary with problems := summary.problems ++ [problem] }

/-- The file that sets up the types goes, unless the command says otherwise. -/
def tidyingConfig (a : Arguments) (summary : Summary) : Work RunError Summary := do
  if a.has .noConfig then return summary
  else
    match ← (removingConfig a.directory).outcome with
    | .ok removed => return { summary with removedConfig := removed }
    | .error fault =>
      let problem := "failed to remove tsconfig.json: " ++ fault.message
      return { summary with problems := summary.problems ++ [problem] }

/-- The conversion, once the branch is settled, and what comes after it. -/
def convertingAndTidying (a : Arguments) (c : Collaborators) (refusals : Refusals)
    (branch : Option BranchAction) : Work RunError Summary := do
  let report ← (converting refusals a.config).adapt .conversion
  if report.isTotalFailure then return { branch, report }
  else
    let summary ← tidyingPackages a c { branch, report }
    tidyingConfig a summary

/-- Runs a command. -/
def running (a : Arguments) (c : Collaborators) (refusals : Refusals) : Work RunError Summary := do
  let tree ← look
  if !tree.has a.directory then throw (.conversion (.missingRoot a.directory))
  else if !tree.hasDirectory a.directory then throw (.conversion (.notADirectory a.directory))
  else
    let branch ← settlingBranch a c
    convertingAndTidying a c refusals branch

theorem Work.Ends.tree_eq {ε α : Type} {work : Work ε α} {start : Journal} {result : Except ε α}
    {tree : FileTree} {entries : List Entry} {calls : List Call}
    (h : work.Ends start result tree entries calls)
    (hfailed : ∀ entry ∈ entries, entry.isFailedWrite) : tree = start.tree :=
  Except.ok.inj (h.replay.symm.trans (Entry.foldlM_replay_of_failed hfailed))

section Runs

variable (a : Arguments) (c : Collaborators) (refusals : Refusals) (start : Journal)

theorem settlingBranch_ends :
    (settlingBranch a c).Ends start (branchFor a c).1 start.tree [] (branchFor a c).2 := by
  unfold settlingBranch branchFor
  split
  · exact ends_pure none
  unfold ensureBranch
  cases c.currentBranch with
  | error cause => exact .ask (.refused rfl)
  | ok current =>
    cases hkept : isConversionBranch current with
    | true =>
      simp only [hkept, ↓reduceIte]
      refine .ask (.known rfl ?_)
      simp only [hkept, ↓reduceIte]
      exact ends_pure _
    | false =>
      simp only [hkept]
      cases hcreate : c.createBranch conversionBranch with
      | error cause =>
        refine .ask (.known rfl ?_)
        simp only [hkept]
        exact .ask (.refused rfl)
      | ok _ =>
        refine .ask (.known rfl ?_)
        simp only [hkept]
        exact .ask (.known rfl (ends_pure _))

theorem removingPackages_ends (directory : String) :
    (removingPackages c directory).Ends start (removeTypePackages c start.tree directory).1
      start.tree [] (removeTypePackages c start.tree directory).2 := by
  unfold removeTypePackages
  cases hnames : packagesOf start.tree directory with
  | error cause => exact Ends.ask (Ends.look (Ends.refused hnames))
  | ok names =>
    dsimp only
    cases htargets : names.filter isTypePackage with
    | nil =>
      refine Ends.ask (Ends.look (Ends.known hnames ?_))
      simp only [htargets]
      exact ends_pure []
    | cons target rest =>
      dsimp only
      cases hremove : c.removePackages (target :: rest) with
      | error cause =>
        refine Ends.ask (Ends.look (Ends.known hnames ?_))
        simp only [htargets]
        exact Ends.ask (Ends.refused hremove)
      | ok _ =>
        refine Ends.ask (Ends.look (Ends.known hnames ?_))
        simp only [htargets]
        exact Ends.ask (Ends.known hremove (ends_pure _))

theorem removingConfig_ends (directory : String) :
    ∃ entries, match removeTypeConfig start.tree directory with
      | .ok (removed, tree) =>
        (removingConfig directory).Ends start (.ok removed) tree entries []
      | .error fault =>
        (removingConfig directory).Ends start (.error fault) start.tree entries [] := by
  let deed := Deed.remove (Path.join directory typeConfigFile)
  unfold removeTypeConfig
  cases hremove : start.tree.remove (Path.join directory typeConfigFile) with
  | ok tree =>
    have hanswer : deed.answer {} start.tree = .ok tree := hremove
    exact ⟨_, (ends_perform_ok hanswer).outcome.finally rfl⟩
  | error fault =>
    have hanswer : deed.answer {} start.tree = .error fault := hremove
    refine ⟨[{ deed, fault }], ?_⟩
    cases fault with
    | missing => exact (ends_perform_error hanswer).outcome.finally rfl
    | _ => exact (ends_perform_error hanswer).outcome.bind (ends_throw _)

theorem tidyingPackages_ends (summary : Summary) :
    (tidyingPackages a c summary).Ends start (.ok (tidyPackages a c start.tree summary).1)
      start.tree [] (tidyPackages a c start.tree summary).2 := by
  unfold tidyingPackages tidyPackages
  split
  · exact ends_pure summary
  have hends := removingPackages_ends c start a.directory
  generalize removeTypePackages c start.tree a.directory = answer at hends ⊢
  obtain ⟨result, calls⟩ := answer
  cases result with
  | ok removed | error cause => exact hends.outcome.finally rfl

theorem tidyingConfig_ends (summary : Summary) :
    let after := tidyConfig a start.tree summary
    ∃ entries, (tidyingConfig a summary).Ends start (.ok after.1) after.2 entries [] := by
  unfold tidyingConfig tidyConfig
  split
  · exact ⟨[], ends_pure summary⟩
  obtain ⟨entries, hends⟩ := removingConfig_ends start a.directory
  cases hremove : removeTypeConfig start.tree a.directory with
  | ok removed | error fault =>
    simp only [hremove] at hends
    exact ⟨entries, hends.outcome.finally rfl⟩

theorem tidying_ends (summary : Summary) :
    let packages := tidyPackages a c start.tree summary
    let after := tidyConfig a start.tree packages.1
    ∃ entries, (tidyingPackages a c summary >>= tidyingConfig a).Ends start (.ok after.1) after.2
      entries packages.2 := by
  have hpackages := tidyingPackages_ends a c start summary
  obtain ⟨entries, hconfig⟩ := tidyingConfig_ends a
    (start.extend start.tree [] (tidyPackages a c start.tree summary).2)
    (tidyPackages a c start.tree summary).1
  refine ⟨entries, ?_⟩
  simpa using hpackages.bind hconfig

theorem report_tidied (tree tree' : FileTree) (summary : Summary) :
    (tidyConfig a tree (tidyPackages a c tree' summary).1).1.report = summary.report := by
  unfold tidyConfig tidyPackages
  repeat' split
  all_goals rfl

/-- The calls that look after the branch. -/
def Call.isAboutBranch : Call → Bool
  | currentBranch => true
  | createBranch _ => true
  | _ => false

theorem ensureBranch_calls : ∀ call ∈ (ensureBranch c).2, call.isAboutBranch := by
  unfold ensureBranch
  cases c.currentBranch with
  | error cause => simp [Call.isAboutBranch]
  | ok current =>
    dsimp only
    split
    · simp [Call.isAboutBranch]
    · cases c.createBranch conversionBranch <;> simp [Call.isAboutBranch]

theorem branchFor_calls : ∀ call ∈ (branchFor a c).2, call.isAboutBranch := by
  unfold branchFor
  split
  · simp
  have hcalls := ensureBranch_calls c
  generalize ensureBranch c = answer at hcalls ⊢
  obtain ⟨result, calls⟩ := answer
  cases result <;> exact hcalls

/-- Once the branch is settled, an error comes before the first deed. If all files fail, nothing
is tidied up. -/
theorem convertingAndTidying_ends (branch : Option BranchAction) :
    let after := convertAndTidy a c refusals branch start.tree
    ∃ entries, (convertingAndTidying a c refusals branch).Ends start after.result after.tree
        entries after.calls ∧
      (∀ error, after.result = .error error → entries = [] ∧ after.calls = []) ∧
      ∀ summary, after.result = .ok summary → summary.report.isTotalFailure →
        (∀ entry ∈ entries, entry.isFailedWrite) ∧ after.calls = [] ∧
          summary.removedPackages = [] ∧ summary.removedConfig = false := by
  unfold convertAndTidy
  cases hconvert : convertDirectory refusals a.config start.tree with
  | error error =>
    have hends := converting_ends_error refusals start hconvert
    refine ⟨[], (hends.adapt _).stop, ?_, ?_⟩
    · intros; exact ⟨rfl, rfl⟩
    · intro summary h; cases h
  | ok converted =>
    obtain ⟨report, tree⟩ := converted
    obtain ⟨entries, hends, hfailed⟩ := converting_ends_ok refusals start hconvert
    dsimp only
    cases htotal : report.isTotalFailure with
    | true =>
      refine ⟨entries, (hends.adapt _).finally (by simp [htotal]), ?_, ?_⟩
      · intro error h; cases h
      · rintro summary h -
        cases h
        exact ⟨hfailed htotal, rfl, rfl, rfl⟩
    | false =>
      obtain ⟨others, htidying⟩ :=
        tidying_ends a c (start.extend tree entries []) { branch, report }
      refine ⟨entries ++ others, (hends.adapt _).bind ?_, ?_, ?_⟩
      · simpa [htotal] using htidying
      · intro error h; cases h
      · intro summary h htotal'
        cases h
        simp [report_tidied, htotal] at htotal'

/-- A run goes as its model says. An error comes before the first deed, and if all files fail,
nothing is tidied up. -/
theorem running_ends :
    let after := run a c refusals start.tree
    ∃ entries, (running a c refusals).Ends start after.result after.tree entries after.calls ∧
      (∀ error, after.result = .error error →
        entries = [] ∧ after.tree = start.tree ∧ ∀ call ∈ after.calls, call.isAboutBranch) ∧
      ∀ summary, after.result = .ok summary → summary.report.isTotalFailure →
        (∀ entry ∈ entries, entry.isFailedWrite) ∧ after.tree = start.tree ∧
          (∀ call ∈ after.calls, call.isAboutBranch) ∧
          summary.removedPackages = [] ∧ summary.removedConfig = false := by
  unfold run
  split
  next hroot =>
    refine ⟨[], Ends.look ?_, by simp, by simp⟩
    rw [if_pos hroot]
    exact ends_throw _
  next hroot =>
  split
  next hdirectory =>
    refine ⟨[], Ends.look ?_, by simp, by simp⟩
    rw [if_neg hroot, if_pos hdirectory]
    exact ends_throw _
  next hdirectory =>
  have hbranch := settlingBranch_ends a c start
  have hcalls := branchFor_calls a c
  generalize branchFor a c = answer at hbranch hcalls ⊢
  obtain ⟨result, calls⟩ := answer
  cases result with
  | error error =>
    refine ⟨[], Ends.look ?_, ?_, ?_⟩
    · rw [if_neg hroot, if_neg hdirectory]
      exact hbranch.stop
    · intro _ _
      exact ⟨rfl, rfl, hcalls⟩
    · intro summary h; cases h
  | ok branch =>
    obtain ⟨entries, hends, herror, htotal⟩ :=
      convertingAndTidying_ends a c refusals (start.extend start.tree [] calls) branch
    simp only [Journal.extend_tree] at hends herror htotal
    refine ⟨entries, Ends.look ?_, ?_, ?_⟩
    · rw [if_neg hroot, if_neg hdirectory]
      exact hbranch.bind hends
    · intro error h
      obtain ⟨hentries, hnone⟩ := herror error h
      refine ⟨hentries, hends.tree_eq (by simp [hentries]), fun call hcall => hcalls call ?_⟩
      simpa [hnone] using hcall
    · intro summary h hfailure
      obtain ⟨hentries, hnone, htidied⟩ := htotal summary h hfailure
      refine ⟨hentries, hends.tree_eq hentries, fun call hcall => hcalls call ?_, htidied⟩
      simpa [hnone] using hcall

end Runs

/-- A run that stops with an error has tried nothing on the files, and the same holds of the
conversion of a directory. A run that converts none of its files has tried at most writes that
failed. It leaves all files as they were, and neither packages nor the file that sets up the types
are taken away. -/
theorem run_untouched_unless_converted (a : Arguments) (c : Collaborators) (refusals : Refusals)
    (tree : FileTree) :
    let after := run a c refusals tree
    (∃ entries,
      (running a c refusals).Ends { tree } after.result after.tree entries after.calls ∧
      (∀ error, after.result = .error error →
        entries = [] ∧ after.tree = tree ∧ ∀ call ∈ after.calls, call.isAboutBranch) ∧
      ∀ summary, after.result = .ok summary → summary.report.isTotalFailure →
        (∀ entry ∈ entries, entry.isFailedWrite) ∧ after.tree = tree ∧
          (∀ call ∈ after.calls, call.isAboutBranch) ∧
          summary.removedPackages = [] ∧ summary.removedConfig = false) ∧
    ∀ config,
      (∀ error, convertDirectory refusals config tree = .error error →
        (converting refusals config).Ends { tree } (.error error) tree [] []) ∧
      ∀ report after, convertDirectory refusals config tree = .ok (report, after) →
        ∃ entries, (converting refusals config).Ends { tree } (.ok report) after entries [] := by
  refine ⟨running_ends a c refusals { tree }, fun config => ⟨?_, ?_⟩⟩
  · intro error h
    exact converting_ends_error refusals { tree } h
  · intro report after h
    obtain ⟨entries, hends, -⟩ := converting_ends_ok refusals { tree } h
    exact ⟨entries, hends⟩

/-- A directory with a file that cannot be converted, packages and the setup of types. -/
def brokenProject : FileTree :=
  .directory "" [.directory "p"
    [.file "a.ts" "\x7d".toUTF8,
      .file "package.json" "\x7b\"dependencies\":\x7b\"typescript\":\"5\"\x7d\x7d".toUTF8,
      .file "tsconfig.json" "\x7b\x7d".toUTF8]]

/-- Other programs that do what they are asked, but for the new branch. -/
def willing (createBranch : String → Except String Unit) : Collaborators where
  currentBranch := .ok "main"
  createBranch
  removePackages _ := .ok ()

/-- A branch that cannot be made, a pattern that cannot be read, and a project of which no file
can be converted. -/
theorem run_untouched_unless_converted_broken :
    ((run { directory := "p" } (willing fun _ => .error "locked") {} brokenProject).result =
        .error (.createBranch "locked") ∧
      (run { directory := "p" } (willing fun _ => .error "locked") {} brokenProject).tree =
        brokenProject) ∧
    (convertDirectory {} { root := "p", exclude := ["["] } brokenProject =
        .error (.invalidPattern "[" .unclosedClass) ∧
      (converting {} { root := "p", exclude := ["["] }).Ends { tree := brokenProject }
        (.error (.invalidPattern "[" .unclosedClass)) brokenProject [] []) ∧
    let after := run { directory := "p" } (willing fun _ => .ok ()) {} brokenProject
    ∃ summary, after.result = .ok summary ∧ summary.report.isTotalFailure ∧
      after.tree = brokenProject ∧ (∀ call ∈ after.calls, call.isAboutBranch) ∧
      summary.removedPackages = [] ∧ summary.removedConfig = false := by
  have hpattern : convertDirectory {} { root := "p", exclude := ["["] } brokenProject =
      .error (.invalidPattern "[" .unclosedClass) := by rfl
  refine ⟨⟨by decide +kernel, ?_⟩, ⟨hpattern, ?_⟩, ?_⟩
  · obtain ⟨⟨_, -, herror, -⟩, -⟩ := run_untouched_unless_converted { directory := "p" }
      (willing fun _ => .error "locked") {} brokenProject
    exact (herror (.createBranch "locked") (by decide +kernel)).2.1
  · exact ((run_untouched_unless_converted { directory := "p" } (willing fun _ => .ok ()) {}
      brokenProject).2 { root := "p", exclude := ["["] }).1 _ hpattern
  · obtain ⟨⟨_, -, -, htotal⟩, -⟩ :=
      run_untouched_unless_converted { directory := "p" } (willing fun _ => .ok ()) {} brokenProject
    have hfailure : (run { directory := "p" } (willing fun _ => .ok ()) {}
        brokenProject).result.toOption.any (·.report.isTotalFailure) := by decide +kernel
    cases hresult : (run { directory := "p" } (willing fun _ => .ok ()) {}
      brokenProject).result with
    | error error => rw [hresult] at hfailure; cases hfailure
    | ok summary =>
      rw [hresult] at hfailure
      exact ⟨summary, hresult, hfailure, (htotal summary hresult hfailure).2⟩

end Untype.Command
