import GoBindings.Go.Fault

/-!
# Statements of a token list

Brackets have to nest. The tokens of a well-nested list fall into statements at their outermost
level: a semicolon ends one, and so does a line end after an operand or a closing bracket.
-/

namespace GoBindings.Go

def closerOf (opener : String) : String :=
  if opener = "(" then ")" else if opener = "[" then "]" else "\x7d"

/-- The first fault in the nesting of the brackets, given those that are open, innermost first. -/
def bracketFault? : (opened : List Token) → List Token → Option Fault
  | [], [] => none
  | opener :: _, [] => some ⟨some opener.position, .unclosed opener.text⟩
  | opened, t :: ts =>
    if t.isOpener then bracketFault? (t :: opened) ts
    else if t.isCloser then
      match opened with
      | [] => some ⟨some t.position, .strayCloser t.text⟩
      | opener :: outer =>
        if closerOf opener.text = t.text then bracketFault? outer ts
        else some ⟨some t.position,
          .wrongCloser (closerOf opener.text) opener.text opener.position t.text⟩
    else bracketFault? opened ts

/-- Whether a line end after the token ends the statement. -/
def endsStatement (t : Token) : Bool :=
  match t.kind with
  | .ident | .number | .literal => true
  | .punct => t.text = "++" || t.text = "--" || t.isCloser
  | _ => false

def depthAfter (depth : Nat) (t : Token) : Nat :=
  if t.isOpener then depth + 1 else if t.isCloser then depth - 1 else depth

/-- Ends a statement whose tokens are given last first. -/
def endStatement (current : List Token) (rest : List (List Token)) : List (List Token) :=
  if current.isEmpty then rest else current.reverse :: rest

/-- The statements of the tokens, of which `current` holds the tokens of the one begun, last
first, at bracket depth `depth`. -/
def statementsFrom (depth : Nat) (current : List Token) : List Token → List (List Token)
  | [] => endStatement current []
  | t :: ts =>
    if t.endsLine then
      if depth = 0 then
        if current.head?.any endsStatement then endStatement current (statementsFrom 0 [] ts)
        else statementsFrom 0 current ts
      else statementsFrom depth (t :: current) ts
    else if t.isTrivia then statementsFrom depth current ts
    else if depth = 0 && t.is ";" then endStatement current (statementsFrom 0 [] ts)
    else statementsFrom (depthAfter depth t) (t :: current) ts

def statements (tokens : List Token) : List (List Token) := statementsFrom 0 [] tokens

end GoBindings.Go
