import Wireframe.Format.Pen

/-!
# Formatting

A source is formatted by balancing its tokens and writing them anew, with the comments that stood on
lines of their own.  Nothing of the source but its tokens, those comments and the blank lines
between top-level forms has an influence.
-/

namespace Wireframe
namespace Style

/-- Format tokens with the comments of their source. -/
def formatTokens (style : Style) (comments : List Comment) (tokens : List Token) : String :=
  let pen := Pen.start (comments.filter Comment.standalone)
  let pen := Pen.tokens style pen (Token.named [] (Token.balance tokens))
  String.ofList (pen.text ++ ['\n'])

/-- Format a source. -/
def format (style : Style) (source : String) : Except LexFault String :=
  (Token.ofSource source).map (style.formatTokens (Comment.ofSource source))

end Style
end Wireframe
