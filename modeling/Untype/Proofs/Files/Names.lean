-- Paths that end in a name, piece by piece. A converted file keeps its
-- directory, and its new name is no name of a file to convert.
import Untype.Files.Target
import Untype.Proofs.Files.Views
import Untype.Proofs.Places

namespace Untype.Path

variable {name directory stem extension old : String} {cs : List Char}

/-! ## Pieces -/

/-- A name of a directory entry. -/
def isName (name : String) : Bool :=
  name != "" && name != "." && name != ".." && !name.toList.contains '/'

theorem isName_iff :
    isName name ↔ name ≠ "" ∧ name ≠ "." ∧ name ≠ ".." ∧ '/' ∉ name.toList := by
  simp [isName, and_assoc]

theorem pieces_ne_nil (cs : List Char) : pieces cs ≠ [] := by
  fun_cases pieces cs <;> simp_all

theorem pieces_append (front back : List Char) :
    pieces (front ++ '/' :: back) = pieces front ++ pieces back := by
  induction front with
  | nil => simp [pieces]
  | cons c front ih =>
    rw [List.cons_append, pieces, pieces, ih]
    split
    · rfl
    · obtain ⟨piece, others, hpieces⟩ := List.exists_cons_of_ne_nil (pieces_ne_nil front)
      simp [hpieces]

theorem pieces_of_not_mem (h : '/' ∉ cs) : pieces cs = [cs] := by
  induction cs with
  | nil => rfl
  | cons c cs ih =>
    rw [List.mem_cons, not_or] at h
    rw [pieces, ih h.2, if_neg (by simpa using Ne.symm h.1)]

theorem exists_front (h : directory ≠ "") :
    ∃ front, (directory.toList = front ∨ directory.toList = front ++ ['/']) ∧
      ∀ name, (join directory name).toList = front ++ '/' :: name.toList := by
  have hempty : directory.isEmpty = false := by simpa using h
  by_cases hlast : directory.toList.getLast? = some '/'
  · obtain ⟨front, hfront⟩ := List.getLast?_eq_some_iff.1 hlast
    refine ⟨front, .inr hfront, fun name => ?_⟩
    simp [join, hempty, hfront]
  · refine ⟨directory.toList, .inl rfl, fun name => ?_⟩
    simp [join, hempty, hlast]

theorem join_append (name more : String) :
    join directory (name ++ more) = join directory name ++ more := by
  unfold join
  split <;> simp [String.append_assoc]

/-! ## Last names -/

/-- A name at the end of a path is not trimmed. -/
theorem trimTail_name (h : isName name) (rest : List Char) :
    trimTail (name.toList.reverse ++ rest) = name.toList.reverse ++ rest := by
  obtain ⟨hempty, hdot, -, hslash⟩ := isName_iff.1 h
  have hslash : '/' ∉ name.toList.reverse := by simpa using hslash
  have hdot : name.toList.reverse ≠ ['.'] := by
    intro heq
    have hname : name.toList = ".".toList := by simpa using congrArg List.reverse heq
    exact hdot (String.toList_inj.1 hname)
  have hempty : name.toList.reverse ≠ [] := by simpa using hempty
  generalize name.toList.reverse = cs at *
  match cs with
  | [] => exact absurd rfl hempty
  | [c] =>
    have hc : c ≠ '/' := fun heq => hslash (by simp [heq])
    have hc' : c ≠ '.' := fun heq => hdot (by rw [heq])
    simp [trimTail, hc, hc']
  | c :: d :: cs =>
    have hc : c ≠ '/' := fun heq => hslash (by simp [heq])
    have hd : d ≠ '/' := fun heq => hslash (by simp [heq])
    simp [trimTail, hc, hd]

theorem takeWhile_name (h : '/' ∉ cs) (rest : List Char) :
    (cs.reverse ++ '/' :: rest).takeWhile (· != '/') = cs.reverse ∧
      (cs.reverse ++ '/' :: rest).dropWhile (· != '/') = '/' :: rest := by
  have hall : ∀ c ∈ cs.reverse, (c != '/') := by
    intro c hc
    rw [bne_iff_ne]
    rintro rfl
    exact h (List.mem_reverse.1 hc)
  constructor
  · rw [List.takeWhile_append_of_pos hall]
    simp
  · rw [List.dropWhile_append_of_pos hall]
    simp

/-- The last name of a path is the one it was made with. -/
theorem splitName?_join (hdirectory : directory ≠ "") (h : isName name) :
    splitName? (join directory name) = some (join directory "", name) := by
  obtain ⟨hempty, hdot, hparent, hslash⟩ := isName_iff.1 h
  obtain ⟨front, -, hjoin⟩ := exists_front hdirectory
  have hreverse : (join directory name).toList.reverse =
      name.toList.reverse ++ '/' :: front.reverse := by
    simp [hjoin name]
  have hfront : join directory "" = String.ofList (front ++ ['/']) := by
    rw [← String.toList_inj, hjoin]
    simp
  obtain ⟨htake, hdrop⟩ := takeWhile_name hslash front.reverse
  unfold splitName?
  dsimp only
  rw [hreverse, trimTail_name h, htake, hdrop, hfront]
  rw [if_neg]
  · simp
  · have hdot : name.toList ≠ ['.'] := fun heq => hdot (String.toList_inj.1 heq)
    have hparent : name.toList ≠ ['.', '.'] := fun heq => hparent (String.toList_inj.1 heq)
    simp [hempty, hdot, hparent]

theorem fileName?_join (hdirectory : directory ≠ "") (h : isName name) :
    fileName? (join directory name) = some name := by
  rw [fileName?, splitName?_join hdirectory h]
  rfl

theorem splitName?_parent (hdirectory : directory ≠ "") :
    splitName? (join directory "..") = none := by
  obtain ⟨front, -, hjoin⟩ := exists_front hdirectory
  have hreverse : (join directory "..").toList.reverse = '.' :: '.' :: '/' :: front.reverse := by
    simp [hjoin]
  unfold splitName?
  dsimp only
  rw [hreverse]
  simp [trimTail]

/-! ## Extensions -/

/-- The extension of a name follows its last dot, and something comes before that. -/
theorem splitExtension_eq_some (h : splitExtension name = (stem, some extension)) :
    name = stem ++ "." ++ extension ∧ stem ≠ "" := by
  unfold splitExtension at h
  dsimp only at h
  have hsplit := List.takeWhile_append_dropWhile (p := (· != '.')) (l := name.toList.reverse)
  split at h
  · rename_i reversed hdrop
    split at h
    · cases h
    · rename_i hstem
      cases h
      rw [hdrop] at hsplit
      refine ⟨?_, by simpa using hstem⟩
      generalize name.toList.reverse.takeWhile (· != '.') = tail at hsplit ⊢
      have hname := congrArg List.reverse hsplit
      rw [List.reverse_reverse] at hname
      rw [← String.toList_inj, ← hname]
      simp
  · cases h

theorem splitExtension_append (hstem : stem ≠ "") (h : '.' ∉ extension.toList) :
    splitExtension (stem ++ "." ++ extension) = (stem, some extension) := by
  have hall : ∀ c ∈ extension.toList.reverse, (c != '.') := by
    intro c hc
    rw [bne_iff_ne]
    rintro rfl
    exact h (List.mem_reverse.1 hc)
  have hreverse : (stem ++ "." ++ extension).toList.reverse =
      extension.toList.reverse ++ '.' :: stem.toList.reverse := by
    simp
  unfold splitExtension
  dsimp only
  rw [hreverse, List.takeWhile_append_of_pos hall, List.dropWhile_append_of_pos hall]
  simp [hstem]

theorem dropLastBytes_append (front back : String) :
    dropLastBytes back.utf8ByteSize (front ++ back) = front := by
  have hslice := Text.slice?_middle "" front back
  simp_all [dropLastBytes, Text.slice]

/-- A file of this name has a counterpart. -/
def isConvertible (name : String) : Bool := ((splitExtension name).2.bind targetExtension?).isSome

theorem targetExtension?_eq_some {fresh : String} (h : targetExtension? old = some fresh) :
    fresh = "js" ∨ fresh = "jsx" := by
  unfold targetExtension? at h
  dsimp only at h
  split at h
  · exact .inl (Option.some.inj h).symm
  · split at h
    · exact .inr (Option.some.inj h).symm
    · cases h

/-- A stem and an extension are a name. -/
theorem isName_append (hstem : stem ≠ "") (hdot : stem ≠ ".") (hslash : '/' ∉ stem.toList)
    (hslash' : '/' ∉ extension.toList) : isName (stem ++ "." ++ extension) := by
  have hlist : stem.toList ≠ [] := by simpa using hstem
  have hdot : stem.toList ≠ ['.'] := fun heq => hdot (String.toList_inj.1 heq)
  have hne : ∀ text : String, stem.toList ++ '.' :: extension.toList ≠ text.toList →
      stem ++ "." ++ extension ≠ text := by
    intro text hne heq
    exact hne (by rw [← heq]; simp)
  refine isName_iff.2 ⟨hne _ (by simp), hne _ ?_, hne _ ?_, by simp [hslash, hslash']⟩
  · intro heq
    obtain ⟨c, cs, hcs⟩ := List.exists_cons_of_ne_nil hlist
    simp [hcs] at heq
  · intro heq
    match hcs : stem.toList with
    | [] => exact hlist hcs
    | [c] =>
      have heq : c = '.' ∧ '.' :: extension.toList = ['.'] := by simpa [hcs] using heq
      exact hdot (by rw [hcs, heq.1])
    | c :: d :: cs => simp [hcs] at heq

/-- A new extension takes the place of the old one. -/
theorem withExtension_join (hdirectory : directory ≠ "") (hstem : stem ≠ "")
    (hname : isName (stem ++ "." ++ old))
    (hold : extension? (join directory (stem ++ "." ++ old)) = some old) (fresh : String) :
    withExtension fresh (join directory (stem ++ "." ++ old)) =
      if stem = "." then join directory ".." else join directory (stem ++ "." ++ fresh) := by
  obtain ⟨-, -, -, hslash⟩ := isName_iff.1 hname
  rw [withExtension, hold]
  dsimp only
  rw [join_append, dropLastBytes_append, setExtension]
  by_cases hparent : stem = "."
  · subst hparent
    rw [show "." ++ "." = ".." from rfl, splitName?_parent hdirectory, if_pos rfl]
  · have hslash : '/' ∉ stem.toList := by
      simp only [String.toList_append, List.mem_append, not_or] at hslash
      exact hslash.1.1
    have hname := isName_append hstem hparent hslash (show '/' ∉ "".toList by simp)
    have hsplit := splitExtension_append hstem (show '.' ∉ "".toList by simp)
    rw [String.append_empty] at hname hsplit
    rw [splitName?_join hdirectory hname, if_neg hparent]
    dsimp only
    rw [hsplit, ← join_append, ← join_append, ← join_append, String.empty_append]

/-- A converted file stays in its directory. Its new name is none of a file to convert, or there
is no new name. -/
theorem target_join {target : String} (hdirectory : directory ≠ "") (hname : isName name)
    (h : Path.target (join directory name) = .ok target) :
    isConvertible name ∧
      (target = join directory ".." ∨ ∃ fresh, target = join directory fresh ∧
        isName fresh ∧ isConvertible fresh = false) := by
  have hextension : extension? (join directory name) = (splitExtension name).2 := by
    rw [extension?, fileName?_join hdirectory hname]
    rfl
  unfold Path.target at h
  split at h
  · rename_i fresh hfresh
    cases h
    rw [hextension] at hfresh
    refine ⟨by rw [isConvertible, hfresh]; rfl, ?_⟩
    obtain ⟨old, hold, hnew⟩ := Option.bind_eq_some_iff.1 hfresh
    have hsplit : splitExtension name = ((splitExtension name).1, some old) := Prod.ext rfl hold
    rw [hold] at hextension
    generalize (splitExtension name).1 = stem at hsplit
    obtain ⟨rfl, hstem⟩ := splitExtension_eq_some hsplit
    rw [withExtension_join hdirectory hstem hname hextension]
    split
    · exact .inl rfl
    · rename_i hdot
      obtain ⟨-, -, -, hslash⟩ := isName_iff.1 hname
      have hslash : '/' ∉ stem.toList := by
        simp only [String.toList_append, List.mem_append, not_or] at hslash
        exact hslash.1.1
      have hfresh : '/' ∉ fresh.toList ∧ '.' ∉ fresh.toList ∧ targetExtension? fresh = none := by
        rcases targetExtension?_eq_some hnew with rfl | rfl <;> decide +kernel
      refine .inr ⟨stem ++ "." ++ fresh, rfl, isName_append hstem hdot hslash hfresh.1, ?_⟩
      rw [isConvertible, splitExtension_append hstem hfresh.2.1, Option.bind_some, hfresh.2.2]
      rfl
  · cases h

end Untype.Path

namespace Untype.FileTree

open Untype.Path

variable {tree : FileTree} {path : String} {place : List String}

/-! ## Names in directories -/

theorem ne_empty_of_resolve (h : tree.resolve path = .ok place) : path ≠ "" := by
  rintro rfl
  cases h

/-- A name in a directory is the last piece of its path. -/
theorem resolve_join (h : tree.resolve path = .ok place) (hplace : tree.view place = some none)
    {name : String} (hname : isName name) :
    tree.resolve (join path name) =
      if (tree.view (place ++ [name])).isSome then .ok (place ++ [name]) else .error .missing := by
  obtain ⟨hempty, hdot, hparent, hslash⟩ := isName_iff.1 hname
  obtain ⟨front, hfront, hjoin⟩ := exists_front (ne_empty_of_resolve h)
  have hstep : tree.follow [name] place =
      if (tree.view (place ++ [name])).isSome then .ok (place ++ [name]) else .error .missing := by
    rw [follow_cons, hplace]
    simp [hempty, hdot, hparent, follow]
  rw [← hstep]
  unfold resolve at h ⊢
  dsimp only at h ⊢
  split at h
  · cases h
  rename_i hrelative
  simp only [Bool.or_eq_true, String.isEmpty_iff, beq_iff_eq, not_or] at hrelative
  have hfollow : tree.follow ((pieces front).map String.ofList) [] = .ok place := by
    rcases hfront with hfront | hfront
    · rw [← hfront]
      exact h
    · rw [hfront, pieces_append, List.map_append, follow_append] at h
      cases hfirst : tree.follow ((pieces front).map String.ofList) [] with
      | error fault => rw [hfirst] at h; cases h
      | ok first =>
        rw [hfirst] at h
        change tree.follow [""] first = .ok place at h
        rw [follow_cons] at h
        split at h
        · cases h
        · cases h
        · exact h
  have hhead : front ≠ [] ∧ front.head? ≠ some '/' := by
    rcases hfront with hfront | hfront
    · exact ⟨by simpa [← hfront] using hrelative.1, by simpa [← hfront] using hrelative.2⟩
    · cases front with
      | nil => exact absurd (by rw [hfront]; rfl) hrelative.2
      | cons c front => exact ⟨List.cons_ne_nil _ _, by simpa [hfront] using hrelative.2⟩
  rw [if_neg, hjoin, pieces_append, pieces_of_not_mem hslash, List.map_append, follow_append,
    hfollow]
  · simp [bind, Except.bind]
  · have hnonempty : join path name ≠ "" := by
      rintro heq
      have hlist := hjoin name
      simp [heq] at hlist
    obtain ⟨c, front, rfl⟩ := List.exists_cons_of_ne_nil hhead.1
    simpa [hjoin, hnonempty] using hhead.2

end Untype.FileTree
