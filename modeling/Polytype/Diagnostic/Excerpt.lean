import Polytype.Program.Span
import Polytype.Text.Separated

namespace Polytype

open Text

/-- The lines of a text. A line ends at a line feed, or a carriage return and a line feed; there
is no line after the last end. -/
def linesOf : List Char → List (List Char)
  | [] => []
  | '\n' :: rest => [] :: linesOf rest
  | '\r' :: '\n' :: rest => [] :: linesOf rest
  | c :: rest =>
    match linesOf rest with
    | [] => [[c]]
    | line :: lines => (c :: line) :: lines

def blanks (n : Nat) : String := String.ofList (List.replicate n ' ')

def Span.excerpt (span : Span) (message : String) : String :=
  let lines := linesOf span.source.toList
  let line (i : Nat) : String := String.ofList (lines.getD i [])
  let margin := blanks (toString span.endLine).length ++ " |"
  let before := if span.startLine = 0 then "" else line (span.startLine - 1)
  separated "\n"
    ([margin,
      margin ++ before ++ " ",
      toString (span.startLine + 1) ++ " |" ++ line span.startLine]
      ++ (List.range' (span.startLine + 1) (span.endLine - span.startLine)).map
        (fun i => margin ++ line i)
      ++ [toString (span.endLine + 2) ++ " |" ++ blanks (span.endColumn - 1) ++ "^--- " ++ message,
        margin])

end Polytype
