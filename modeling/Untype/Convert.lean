-- Files without their types.
import Untype.Erasure.Walk
import Untype.Grammar.SourceFile

namespace Untype

/-- A tree without types, and what is worth telling about it. -/
structure Erased where
  tree : SyntaxTree
  findings : List Finding

namespace SyntaxTree

/-- The tree without its types. What cannot be erased is told. -/
def erase (tree : SyntaxTree) (options : Erasure.Options) : Erased :=
  let setting := Erasure.Setting.ofTree options tree.source tree.root
  let v := Erasure.visit setting .none {} tree.root
  { tree := { tree with root := v.node }, findings := v.walk.findings }

def text (tree : SyntaxTree) : String := tree.root.print tree.source

end SyntaxTree

structure Converted where
  code : String
  warnings : List Diagnostic
deriving DecidableEq, Repr

/-- Converts the text of a file. Faults of single tokens are told before what stays. -/
def convert (file text : String) (options : Erasure.Options) : Except ParseError Converted := do
  let tree ← SyntaxTree.parse file text
  let erased := tree.erase options
  return { code := erased.tree.text
           warnings := (tree.findings ++ erased.findings).map (·.inFile file) }

end Untype
