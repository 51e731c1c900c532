import GoBindings.Text.Pieces

/-!
# Numbered listings

A line ends at a line feed, with one carriage return before it counted as part of the line end.
Text after the last line feed is a line too, unless it is empty.
-/

namespace GoBindings.Text

def dropReturn (line : List Char) : List Char := (dropEnd? ['\r'] line).getD line

def linesOfPieces : List (List Char) → List (List Char)
  | [] => []
  | [last] => if last.isEmpty then [] else [last]
  | piece :: pieces => dropReturn piece :: linesOfPieces pieces

def lines (cs : List Char) : List (List Char) := linesOfPieces (splitOn '\n' cs)

/-- `n` in decimal, filled with blanks on the left to five columns. -/
def lineNumber (n : Nat) : String := repeated (5 - (toString n).length) ' ' ++ toString n

def numberLines : Nat → List (List Char) → String
  | _, [] => ""
  | n, line :: rest =>
    lineNumber n ++ "\t" ++ String.ofList line ++ "\n" ++ numberLines (n + 1) rest

def numberedListing (s : String) : String := numberLines 1 (lines s.toList)

end GoBindings.Text
