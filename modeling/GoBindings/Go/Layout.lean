import GoBindings.Go.Check

/-!
# Canonical layout

Lines are indented with tabs by bracket depth, blanks between tokens become one blank, blanks at
the end of a line and repeated empty lines are dropped. What lines hold, and where they end, does
not change.
-/

namespace GoBindings.Go

/-- The tokens between line feeds; nothing follows the last line feed. -/
def physicalLines : List Token → List (List Token)
  | [] => []
  | t :: ts =>
    if t.kind = .newline then [] :: physicalLines ts
    else match physicalLines ts with
      | [] => [[t]]
      | line :: lines => (t :: line) :: lines

/-- The texts of the tokens with one blank for each run of blanks between them. -/
def spacedText (pending : Bool) : List Token → String
  | [] => ""
  | t :: ts =>
    if t.kind = .space then spacedText true ts
    else (if pending then " " else "") ++ t.text ++ spacedText false ts

def depthAfterAll (depth : Nat) (tokens : List Token) : Nat := tokens.foldl depthAfter depth

/-- The indentation of a line: its leading closing brackets and the labels of a switch stand
further out. -/
def indentation (depth : Nat) (words : List Token) : Nat :=
  let outer := depth - (words.takeWhile (·.isCloser)).length
  match words with
  | w :: _ =>
    if w.kind = .ident && (w.text = "case" || w.text = "default") then outer - 1 else outer
  | [] => outer

def lineText (depth : Nat) (line : List Token) : String :=
  let words := line.filter (·.kind ≠ .space)
  if words.isEmpty then ""
  else Text.repeated (indentation depth words) '\t' ++
    spacedText false (line.dropWhile (·.kind = .space))

def lineTexts (depth : Nat) : List (List Token) → List String
  | [] => []
  | line :: lines => lineText depth line :: lineTexts (depthAfterAll depth line) lines

/-- Drops the empty lines at the start, at the end and after another empty line. -/
def squeeze (afterBlank : Bool) : List String → List String
  | [] => []
  | line :: lines =>
    if line = "" then
      if afterBlank || lines.all (· = "") then squeeze afterBlank lines
      else "" :: squeeze true lines
    else line :: squeeze false lines

/-- Every line with its line feed. -/
def unlines : List String → String
  | [] => ""
  | line :: lines => line ++ "\n" ++ unlines lines

def layout (tokens : List Token) : String :=
  unlines (squeeze true (lineTexts 0 (physicalLines tokens)))

/-- Checks a source, lays it out, and checks the result. -/
def format (source : String) : Except BadSource String :=
  match checkedTokens source with
  | .error fault => .error ⟨fault, source⟩
  | .ok tokens => do
    let formatted := layout tokens
    check formatted
    return formatted

end GoBindings.Go
