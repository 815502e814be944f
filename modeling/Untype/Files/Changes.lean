-- What has to be done to files on disk so that they become those of a tree.
import Untype.Files.FileTree

namespace Untype

inductive FileChange where
  | write (path : String) (content : ByteArray)
  | remove (path : String)

namespace FileTree

/-- The files below a directory, without empty directories. -/
def files (tree : FileTree) : List (String × ByteArray) :=
  tree.listing.filterMap fun (path, content) => content.map (path, ·)

/-- The changes that lead from one tree to another. Nothing is removed before all is written. -/
def changes (before after : FileTree) : List FileChange :=
  let (old, new) := (before.files, after.files)
  let written := new.filter fun (path, content) => old.lookup path != some content
  let removed := old.filter fun (path, _) => (new.lookup path).isNone
  written.map (fun (path, content) => .write path content) ++
    removed.map (fun (path, _) => .remove path)

end FileTree

end Untype
