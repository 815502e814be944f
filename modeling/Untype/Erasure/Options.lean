-- What a user can choose about the erasure of types.

namespace Untype.Erasure

structure Options where
  /-- Drop the imports that only types refer to. -/
  elideImports : Bool := true
  /-- Keep class fields that have a type and no value. -/
  keepBareFields : Bool := false
  /-- Elements are calls of this function, so the name before its first dot is in use wherever
  there are elements. -/
  jsxFactory : String := "React"
deriving DecidableEq, Repr

def Options.elementName (options : Options) : String :=
  String.ofList (options.jsxFactory.toList.takeWhile (· ≠ '.'))

end Untype.Erasure
