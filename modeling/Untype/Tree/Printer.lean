-- Trees as text.
import Untype.Tree.Node

namespace Untype.Node

mutual

/-- The text of a tree over its source. A clean node is copied from the source, trivia and
all; a dirty one is put together from its pieces. -/
def print (source : String) : Node → String
  | leaf token =>
    if token.dirty then
      token.trivia.getD (Text.slice source token.span.pos token.span.start) ++
        Text.slice source token.span.start token.span.stop
    else
      Text.slice source token.span.pos token.span.stop
  | inserted piece => piece.trivia.getD "" ++ piece.text
  | branch _ span marks children =>
    if marks.dirty then printAll source children else Text.slice source span.pos span.stop

def printAll (source : String) : List Node → String
  | [] => ""
  | child :: rest => print source child ++ printAll source rest

end

end Untype.Node
