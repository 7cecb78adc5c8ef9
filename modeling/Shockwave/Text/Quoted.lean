/-!
String literals of the script language. The language has no escape for a double quote inside a
string, so a text is written as quoted runs joined with the constant that stands for the quote.
-/
namespace Shockwave.Quoted

inductive Piece where
  | quote
  | run (chars : List Char)
  deriving DecidableEq, Repr

/-- A text cut at its double quotes, without empty runs. -/
def pieces : List Char → List Piece
  | [] => []
  | '"' :: text => .quote :: pieces text
  | c :: text => match pieces text with
    | .run chars :: rest => .run (c :: chars) :: rest
    | rest => .run [c] :: rest

def Piece.text : Piece → String
  | .quote => "QUOTE"
  | .run chars => "\"" ++ String.ofList chars ++ "\""

def literal (s : String) : String :=
  if s.isEmpty then "EMPTY"
  else String.intercalate " & " ((pieces s.toList).map Piece.text)

end Shockwave.Quoted
