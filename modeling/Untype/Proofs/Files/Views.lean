-- A file tree seen as a map from places to what they hold, and what writing
-- and moving files do to that map.
import Mathlib.Logic.Function.Basic
import Untype.Files.FileTree

namespace Untype.FileTree

variable {tree : FileTree} {place : List String}
variable {content : ByteArray} {name fresh path : String} {other : FileTree} {target : List String}

/-! ## Views -/

/-- What a place holds: nothing, a directory, or a file with its bytes. -/
def view (tree : FileTree) (place : List String) : Option (Option ByteArray) :=
  (tree.find? place).map content?

theorem find?_append (front back : List String) (tree : FileTree) :
    tree.find? (front ++ back) = (tree.find? front).bind (find? back) := by
  induction front generalizing tree with
  | nil => rfl
  | cons name front ih =>
    rw [List.cons_append, find?, find?, Option.bind_assoc]
    exact congrArg _ (funext ih)

theorem view_append (front back : List String) (tree : FileTree) :
    tree.view (front ++ back) = (tree.find? front).bind fun entry => entry.view back := by
  rw [view, find?_append, Option.map_bind]
  rfl

theorem view_below_file (h : tree.view place = some (some content)) {below : List String}
    (hbelow : below ≠ []) : tree.view (place ++ below) = none := by
  obtain ⟨entry, hentry, hcontent⟩ := Option.map_eq_some_iff.1 h
  obtain ⟨name, below, rfl⟩ := List.exists_cons_of_ne_nil hbelow
  rw [view_append, hentry]
  cases entry with
  | file own content => rfl
  | directory own entries => cases hcontent

theorem view_of_below (h : (tree.view (place ++ [name])).isSome) : tree.view place = some none := by
  cases hview : tree.view place with
  | none =>
    rw [view_append, Option.map_eq_none_iff.1 hview] at h
    cases h
  | some held =>
    cases held with
    | none => rfl
    | some content =>
      rw [view_below_file hview (List.cons_ne_nil _ _)] at h
      cases h

/-! ## Changes at a place -/

section MapAt

variable {change : FileTree → FileTree}
variable {other : List String}

theorem name_mapAt (hname : ∀ entry, (change entry).name = entry.name) (place : List String)
    (tree : FileTree) : (mapAt change place tree).name = tree.name := by
  cases place with
  | nil => exact hname tree
  | cons name place => cases tree <;> rfl

theorem find?_map_name {step : FileTree → FileTree}
    (hname : ∀ entry, (step entry).name = entry.name) (name : String) (entries : List FileTree) :
    (entries.map step).find? (fun entry => entry.name == name) =
      (entries.find? fun entry => entry.name == name).map step := by
  rw [List.find?_map]
  congr 2
  funext entry
  exact congrArg (· == name) (hname entry)

section Changes

variable (hname : ∀ entry, (change entry).name = entry.name)

include hname

/-- Among the entries of a directory the change goes on in those of one name. -/
theorem find?_mapAt_cons (name : String)
    (rest : List String) (other : String) (own : String) (entries : List FileTree) :
    (mapAt change (name :: rest) (directory own entries)).entries.find?
        (fun entry => entry.name == other) =
      (entries.find? fun entry => entry.name == other).map fun entry =>
        if other = name then mapAt change rest entry else entry := by
  have hstep : ∀ entry : FileTree,
      (if entry.name == name then mapAt change rest entry else entry).name = entry.name := by
    intro entry
    split
    · exact name_mapAt hname rest entry
    · rfl
  rw [mapAt, FileTree.entries, find?_map_name hstep]
  cases hfound : entries.find? fun entry => entry.name == other with
  | none => rfl
  | some entry =>
    have hother : entry.name = other := by simpa using List.find?_some hfound
    simp [hother]

theorem find?_mapAt (place : List String)
    (tree : FileTree) : (mapAt change place tree).find? place = (tree.find? place).map change := by
  induction place generalizing tree with
  | nil => rfl
  | cons name place ih =>
    cases tree with
    | file own content => rfl
    | directory own entries =>
      rw [find?, find?_mapAt_cons hname, find?, Option.map_bind, Option.bind_map]
      refine congrArg _ (funext fun entry => ?_)
      simp [ih]

/-- Elsewhere everything stays. -/
theorem view_mapAt_of_not_isPrefix (h : ¬ place <+: other) (tree : FileTree) :
    (mapAt change place tree).view other = tree.view other := by
  induction place generalizing tree other with
  | nil => exact absurd (List.nil_prefix) h
  | cons name place ih =>
    cases tree with
    | file own content => rfl
    | directory own entries =>
      cases other with
      | nil => rfl
      | cons first other =>
        rw [view, find?, find?_mapAt_cons hname, view, find?, Option.map_bind, Option.map_bind,
          Option.bind_map]
        refine congrArg _ (funext fun entry => ?_)
        rw [Function.comp_apply, Function.comp_apply, Function.comp_apply]
        split
        · rename_i hfirst
          exact ih (fun hprefix => h (by rw [hfirst]; exact List.cons_prefix_cons.2 ⟨rfl, hprefix⟩))
            entry
        · rfl

end Changes

theorem find?_mapEntries {own : String} {entries : List FileTree}
    (h : tree.find? place = some (directory own entries)) (edit : List FileTree → List FileTree) :
    (mapEntries edit place tree).find? place = some (directory own (edit entries)) := by
  rw [mapEntries, find?_mapAt (fun entry => by cases entry <;> rfl), h]
  rfl

theorem view_mapEntries_of_not_isPrefix (h : ¬ place <+: other)
    (edit : List FileTree → List FileTree) :
    (mapEntries edit place tree).view other = tree.view other :=
  view_mapAt_of_not_isPrefix (fun entry => by cases entry <;> rfl) h tree

end MapAt

/-! ## Moved files -/

theorem view_directory_cons (own name : String) (entries : List FileTree) (rest : List String) :
    (directory own entries).view (name :: rest) =
      (entries.find? fun entry => entry.name == name).bind fun entry => entry.view rest := by
  rw [view, find?, Option.map_bind]
  rfl

/-- An entry is taken out of a directory, and a file with a new name comes in. -/
theorem find?_exchange {other : String} {entries : List FileTree} (content : ByteArray)
    (hfresh : entries.find? (fun entry => entry.name == fresh) = none) :
    ((entries.filter fun entry => entry.name != name) ++ [file fresh content]).find?
        (fun entry => entry.name == other) =
      if other = fresh then some (file fresh content)
      else if other = name then none
      else entries.find? fun entry => entry.name == other := by
  rw [List.find?_append, List.find?_filter, List.find?_singleton, FileTree.name]
  by_cases hname : other = name
  · have hnone : entries.find? (fun entry => decide ((entry.name != name) ∧
        (entry.name == other))) = none := by
      simp [List.find?_eq_none, hname]
    rw [hnone, Option.none_or, if_pos hname]
    by_cases h : other = fresh
    · simp [h]
    · simp [h, Ne.symm h]
  · have hsame : (fun entry : FileTree => decide ((entry.name != name) ∧
        (entry.name == other))) = fun entry => entry.name == other := by
      funext entry
      by_cases h : entry.name = other <;> simp [h, hname]
    rw [hsame, if_neg hname]
    by_cases h : other = fresh
    · simp [h, hfresh]
    · simp [h, Ne.symm h]

/-- In a directory, a file is taken out, and one with a new name comes in. -/
theorem view_exchange {own : String} {entries : List FileTree}
    (hfile : (directory own entries).view [name] = some (some content))
    (hfree : (directory own entries).view [fresh] = none) :
    (directory own ((entries.filter fun entry => entry.name != name) ++
      [file fresh content])).view =
      Function.update (Function.update (directory own entries).view [name] none) [fresh]
        (some (some content)) := by
  have hfresh : entries.find? (fun entry => entry.name == fresh) = none := by
    rw [view_directory_cons] at hfree
    cases hfound : entries.find? fun entry => entry.name == fresh with
    | none => rfl
    | some entry => rw [hfound] at hfree; cases hfree
  funext place
  cases place with
  | nil => rfl
  | cons other below =>
    rw [view_directory_cons, find?_exchange content hfresh]
    by_cases hother : other = fresh
    · subst hother
      rw [if_pos rfl]
      cases below with
      | nil => rw [Function.update_self]; rfl
      | cons next below =>
        rw [Function.update_of_ne (by simp), Function.update_of_ne (by simp), view_directory_cons,
          hfresh]
        rfl
    · rw [if_neg hother, Function.update_of_ne (by simp [hother])]
      by_cases hname : other = name
      · subst hname
        rw [if_pos rfl]
        cases below with
        | nil => rw [Function.update_self]; rfl
        | cons next below =>
          rw [Function.update_of_ne (by simp)]
          exact (view_below_file hfile (List.cons_ne_nil next below)).symm
      · rw [if_neg hname, Function.update_of_ne (by simp [hname]), view_directory_cons]

/-- A file that moves to a free place of its directory leaves its old one and is found there.
Nothing else changes. -/
theorem view_move {directory : List String}
    (hfile : tree.view (directory ++ [name]) = some (some content))
    (hfree : tree.view (directory ++ [fresh]) = none) :
    (tree.move (directory ++ [name]) (directory ++ [fresh])).view =
      Function.update (Function.update tree.view (directory ++ [name]) none)
        (directory ++ [fresh]) (some (some content)) := by
  obtain ⟨entry, hentry, hcontent⟩ := Option.map_eq_some_iff.1 hfile
  have hdirectory : tree.view directory = some none := view_of_below (by rw [hfile]; rfl)
  obtain ⟨parent, hparent, hisdir⟩ := Option.map_eq_some_iff.1 hdirectory
  cases entry with
  | directory own entries => cases hcontent
  | file own bytes =>
  cases parent with
  | file own bytes => cases hisdir
  | directory parent entries =>
  cases hcontent
  have hmove : tree.move (directory ++ [name]) (directory ++ [fresh]) =
      mapEntries (· ++ [file fresh content]) directory
        (mapEntries (·.filter fun entry => entry.name != name) directory tree) := by
    simp [move, hentry, erase, withName]
  have hentries := find?_mapEntries
    (find?_mapEntries hparent (·.filter fun entry => entry.name != name))
      (· ++ [file fresh content])
  rw [view_append, hparent, Option.bind_some] at hfile hfree
  funext other
  rw [hmove]
  by_cases hother : directory <+: other
  · obtain ⟨below, rfl⟩ := hother
    rw [view_append, hentries, Option.bind_some, view_exchange hfile hfree]
    simp [Function.update_apply, view_append, hparent]
  · have hname : other ≠ directory ++ [name] := fun h => hother (h ▸ List.prefix_append _ _)
    have hfresh : other ≠ directory ++ [fresh] := fun h => hother (h ▸ List.prefix_append _ _)
    rw [view_mapEntries_of_not_isPrefix hother, view_mapEntries_of_not_isPrefix hother,
      Function.update_of_ne hfresh, Function.update_of_ne hname]

/-! ## Written files -/

mutual

/-- The tree with other bytes in some of its files. -/
def overlay (bytes : List String → Option ByteArray) : FileTree → FileTree
  | file name content => file name ((bytes []).getD content)
  | directory name entries => directory name (overlayAll bytes entries)

/-- The same for the entries of a directory. -/
def overlayAll (bytes : List String → Option ByteArray) : List FileTree → List FileTree
  | [] => []
  | entry :: rest => overlay (fun place => bytes (entry.name :: place)) entry ::
      overlayAll bytes rest

end

section Overlays

variable (bytes : List String → Option ByteArray)

theorem overlayAll_eq_map (entries : List FileTree) :
    overlayAll bytes entries =
      entries.map fun entry => overlay (fun place => bytes (entry.name :: place)) entry := by
  induction entries with
  | nil => rw [overlayAll, List.map_nil]
  | cons entry entries ih => rw [overlayAll, ih, List.map_cons]

theorem name_overlay (tree : FileTree) :
    (overlay bytes tree).name = tree.name := by
  cases tree <;> rw [overlay] <;> rfl

theorem view_overlay (tree : FileTree) (place : List String) : (overlay bytes tree).view place =
      (tree.view place).map (Option.map fun content => (bytes place).getD content) := by
  induction place generalizing tree bytes with
  | nil => cases tree <;> rw [overlay] <;> rfl
  | cons name place ih =>
    cases tree with
    | file own content => rw [overlay]; rfl
    | directory own entries =>
      rw [overlay, overlayAll_eq_map, view_directory_cons, view_directory_cons, find?_map_name
        (fun entry => name_overlay _ entry)]
      cases hfound : entries.find? fun entry => entry.name == name with
      | none => rfl
      | some entry =>
        have hname : entry.name = name := by simpa using List.find?_some hfound
        simp [ih, hname]

end Overlays

mutual

theorem overlay_none : ∀ tree : FileTree, overlay (fun _ => none) tree = tree
  | file name content => by rw [overlay, Option.getD_none]
  | directory name entries => by rw [overlay, overlayAll_none]

theorem overlayAll_none : ∀ entries : List FileTree, overlayAll (fun _ => none) entries = entries
  | [] => by rw [overlayAll]
  | entry :: rest => by rw [overlayAll, overlay_none, overlayAll_none]

end

/-- A file that is written is one more file with other bytes. -/
theorem setContent_overlay (content : ByteArray) (place : List String)
    (bytes : List String → Option ByteArray) (tree : FileTree) :
    setContent content place (overlay bytes tree) =
      overlay (Function.update bytes place (some content)) tree := by
  induction place generalizing tree bytes with
  | nil =>
    cases tree with
    | file own old => simp [overlay, setContent, mapAt]
    | directory own entries =>
      simp [overlay, overlayAll_eq_map, setContent, mapAt]
  | cons name place ih =>
    cases tree with
    | file own old => simp [overlay, setContent, mapAt]
    | directory own entries =>
      simp only [overlay, overlayAll_eq_map, setContent, mapAt, List.map_map, name_overlay,
        Function.comp_def]
      refine congrArg _ (List.map_congr_left fun entry _ => ?_)
      by_cases hname : entry.name = name
      · rw [if_pos (by simpa using hname)]
        refine (ih _ entry).trans (congrArg (overlay · entry) (funext fun below => ?_))
        simp [Function.update_apply, hname]
      · rw [if_neg (by simpa using hname)]
        refine congrArg (overlay · entry) (funext fun below => ?_)
        simp [hname]

/-! ## Paths -/

/-- One piece of a path is followed, by what the places on the way hold. -/
theorem follow_cons (tree : FileTree) (piece : String) (rest place : List String) :
    tree.follow (piece :: rest) place =
      match tree.view place with
      | none => .error .missing
      | some (some _) => .error .notADirectory
      | some none =>
        if piece == "" || piece == "." then tree.follow rest place
        else if piece == ".." then
          if place.isEmpty then .error .missing else tree.follow rest place.dropLast
        else if (tree.view (place ++ [piece])).isSome then tree.follow rest (place ++ [piece])
        else .error .missing := by
  rw [follow, view_append, view]
  cases tree.find? place with
  | none => rfl
  | some entry =>
    cases entry with
    | file own content => rfl
    | directory own entries =>
      have hany : ((directory own entries).view [piece]).isSome =
          entries.any fun entry => entry.name == piece := by
        have hfound : ((directory own entries).view [piece]).isSome =
            (entries.find? fun entry => entry.name == piece).isSome := by
          rw [view_directory_cons]
          cases entries.find? fun entry => entry.name == piece <;> rfl
        rw [hfound, Bool.eq_iff_iff, List.find?_isSome, List.any_eq_true]
      simp only [Option.map_some, content?, Option.bind_some, hany]

theorem follow_append (tree : FileTree) (front back place : List String) :
    tree.follow (front ++ back) place = tree.follow front place >>= tree.follow back := by
  induction front generalizing place with
  | nil => rfl
  | cons piece front ih =>
    rw [List.cons_append, follow_cons, follow_cons]
    cases tree.view place with
    | none => rfl
    | some held =>
      cases held with
      | some content => rfl
      | none =>
        simp only [ih]
        split
        · rfl
        split
        · split <;> rfl
        · split <;> rfl

/-- A path leads to the same place in a tree with the same directories, if something is there. -/
theorem follow_of_directories {pieces : List String} (h : tree.follow pieces place = .ok target)
    (htarget : (other.view target).isSome)
    (hdirectories : ∀ place, tree.view place = some none → other.view place = some none) :
    other.follow pieces place = .ok target := by
  induction pieces generalizing place with
  | nil => exact h
  | cons piece rest ih =>
    rw [follow_cons] at h ⊢
    cases hview : tree.view place with
    | none => rw [hview] at h; cases h
    | some held =>
      cases held with
      | some content => rw [hview] at h; cases h
      | none =>
        rw [hview] at h
        rw [hdirectories place hview]
        dsimp only at h ⊢
        split at h
        · rw [if_pos ‹_›]
          exact ih h
        rename_i hdot
        rw [if_neg hdot]
        split at h
        · rw [if_pos ‹_›]
          split at h
          · cases h
          · rw [if_neg ‹_›]
            exact ih h
        rename_i hparent
        rw [if_neg hparent]
        split at h
        · -- The next place is a directory of both trees, or the target.
          have hnext : (other.view (place ++ [piece])).isSome := by
            cases rest with
            | nil =>
              cases h
              exact htarget
            | cons next rest =>
              have hdirectory : tree.view (place ++ [piece]) = some none := by
                rw [follow_cons] at h
                cases hheld : tree.view (place ++ [piece]) with
                | none => rw [hheld] at h; cases h
                | some held =>
                  cases held with
                  | some content => rw [hheld] at h; cases h
                  | none => rfl
              rw [hdirectories _ hdirectory]
              rfl
          rw [if_pos hnext]
          exact ih h
        · cases h

theorem resolve_of_directories (h : tree.resolve path = .ok target)
    (htarget : (other.view target).isSome)
    (hdirectories : ∀ place, tree.view place = some none → other.view place = some none) :
    other.resolve path = .ok target := by
  unfold resolve at h ⊢
  dsimp only at h ⊢
  split at h
  · cases h
  · rw [if_neg ‹_›]
    exact follow_of_directories h htarget hdirectories

theorem resolve_overlay (bytes : List String → Option ByteArray)
    (h : tree.resolve path = .ok target) (htarget : (tree.view target).isSome) :
    (tree.overlay bytes).resolve path = .ok target := by
  refine resolve_of_directories h (by simpa [view_overlay] using htarget) fun place hplace => ?_
  rw [view_overlay, hplace]
  rfl

theorem at?_eq (h : tree.resolve path = .ok target) :
    tree.at? path = match tree.find? target with
      | some entry => .ok entry
      | none => .error .missing := by
  rw [at?, h]
  rfl

theorem has_iff :
    tree.has path ↔ ∃ target, tree.resolve path = .ok target ∧ (tree.view target).isSome := by
  unfold has
  cases hresolve : tree.resolve path with
  | error fault =>
    rw [at?, hresolve]
    simp [Except.isOk, Except.toBool, bind, Except.bind]
  | ok target =>
    rw [at?_eq hresolve]
    cases hfind : tree.find? target with
    | none | some entry => simp [Except.isOk, Except.toBool, view, hfind]

theorem hasDirectory_iff :
    tree.hasDirectory path ↔
      ∃ target, tree.resolve path = .ok target ∧ tree.view target = some none := by
  unfold hasDirectory
  cases hresolve : tree.resolve path with
  | error fault =>
    rw [at?, hresolve]
    simp [bind, Except.bind]
  | ok target =>
    rw [at?_eq hresolve]
    cases hfind : tree.find? target with
    | none => simp [view, hfind]
    | some entry => cases entry <;> simp [view, hfind, isDirectory, content?]

theorem read_eq_ok :
    tree.read path = .ok content ↔
      ∃ target, tree.resolve path = .ok target ∧ tree.view target = some (some content) := by
  unfold read
  cases hresolve : tree.resolve path with
  | error fault =>
    rw [at?, hresolve]
    simp [bind, Except.bind]
  | ok target =>
    rw [at?_eq hresolve]
    cases hfind : tree.find? target with
    | none => simp [view, hfind, bind, Except.bind]
    | some entry => cases entry <;> simp [view, hfind, content?, bind, Except.bind]

theorem write_eq {old : ByteArray} (hresolve : tree.resolve path = .ok target)
    (hfile : tree.view target = some (some old)) (content : ByteArray) :
    tree.write path content = .ok (tree.setContent content target) := by
  obtain ⟨entry, hentry, hcontent⟩ := Option.map_eq_some_iff.1 hfile
  cases entry with
  | directory own entries => cases hcontent
  | file own bytes =>
    rw [write, hresolve]
    simp [bind, Except.bind, hentry]

end Untype.FileTree
