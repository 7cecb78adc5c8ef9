/-!
Source text as a list of pieces. Rendering puts two spaces for each level of indentation in front of
the first text of a line, and a chosen ending after each line.
-/
namespace Shockwave

inductive Piece where
  | text (s : String)
  | lineEnd
  | indent
  | outdent
  deriving DecidableEq, Repr

/-- Text written so far and where the next piece goes. -/
structure Page where
  text : String := ""
  depth : Nat := 0
  atLineStart : Bool := true
  deriving DecidableEq, Repr

namespace Page

def margin (page : Page) : String :=
  if page.atLineStart then String.join (List.replicate page.depth "  ") else ""

def put (ending : String) (page : Page) : Piece → Page
  | .text s =>
    if s.isEmpty then page
    else { page with text := page.text ++ page.margin ++ s, atLineStart := false }
  | .lineEnd => { page with text := page.text ++ ending, atLineStart := true }
  | .indent => { page with depth := page.depth + 1 }
  | .outdent => { page with depth := page.depth - 1 }

end Page

/-- The text of the pieces on a fresh page. -/
def render (ending : String) (pieces : List Piece) : String :=
  (pieces.foldl (Page.put ending) {}).text

end Shockwave
