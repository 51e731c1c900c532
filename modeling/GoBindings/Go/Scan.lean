import GoBindings.Go.Fault
import GoBindings.Text.Category

/-!
# Scanning

Go text is split into tokens that together spell it completely. At each place the first lexical
class that fits decides: comments, literals, line feeds, blanks, identifiers, numbers, operators.
Every function here measures a token that begins with a given character by the number of
characters after it.
-/

namespace GoBindings.Go

def rawQuote : Char := Char.ofNat 96

def isBlank (c : Char) : Bool := c = ' ' || c = '\t' || c = '\r'

def isIdentStart (c : Char) : Bool := c = '_' || Text.isLetter c

def isIdentRest (c : Char) : Bool := c = '_' || Text.isLetter c || Text.isNumber c

def isNumberRest (c : Char) : Bool := c.isAlphanum || c = '_' || c = '.'

def isExponent (c : Char) : Bool := c = 'e' || c = 'E' || c = 'p' || c = 'P'

def isSign (c : Char) : Bool := c = '+' || c = '-'

/-- The length of the characters at the start that satisfy `p`. -/
def runLength (p : Char → Bool) (cs : List Char) : Nat := (cs.takeWhile p).length

/-- The length up to and with the end of a block comment. -/
def blockCommentLength? : List Char → Option Nat
  | [] => none
  | '*' :: '/' :: _ => some 2
  | _ :: cs => (blockCommentLength? cs).map (· + 1)

/-- The length up to and with the closing quote, on one line. A backslash takes any character
with it, a line feed included. -/
def literalLength? (quote : Char) : List Char → Option Nat
  | [] => none
  | '\\' :: _ :: cs => (literalLength? quote cs).map (· + 2)
  | c :: cs =>
    if c = quote then some 1
    else if c = '\n' || c = '\\' then none
    else (literalLength? quote cs).map (· + 1)

/-- The length up to and with the next raw quote. -/
def rawLength? : List Char → Option Nat
  | [] => none
  | c :: cs => if c = rawQuote then some 1 else (rawLength? cs).map (· + 1)

/-- The length of what goes on with a number: a sign only right after an exponent letter. -/
def numberLength : List Char → Nat
  | [] => 0
  | [c] => if isNumberRest c then 1 else 0
  | c :: d :: cs =>
    if isExponent c && isSign d then numberLength cs + 2
    else if isNumberRest c then numberLength (d :: cs) + 1
    else 0

/-- The operators, each before those that begin it. -/
def operators : List String :=
  ["<<=", ">>=", "&^=", "...", "&&", "||", "<-", "++", "--", "==", "!=", "<=", ">=", ":=", "<<",
   ">>", "&^", "-=", "+=", "*=", "/=", "%=", "&=", "|=", "^=", "-", "+", "*", "/", "%", "&", "|",
   "^", "<", ">", "=", "!", "~", "(", ")", "\x7b", "\x7d", "[", "]", ",", ";", ":", "."]

/-- The length of the first operator that the text begins with. -/
def operatorLength? (cs : List Char) : Option Nat :=
  (operators.find? fun op => (Text.dropStart? op.toList cs).isSome).map (·.length)

/-- The class of the token that begins with `c` and the number of its characters after `c`. -/
def extent? (c : Char) (cs : List Char) : Option (Kind × Nat) :=
  let operator := (operatorLength? (c :: cs)).map fun n => (Kind.punct, n - 1)
  if c = '/' then
    match cs with
    | '/' :: rest => some (.comment, runLength (· ≠ '\n') rest + 1)
    | '*' :: rest =>
      match blockCommentLength? rest with
      | some n => some (.comment, n + 1)
      | none => operator
    | _ => operator
  else if c = '"' || c = '\'' then (literalLength? c cs).map fun n => (.literal, n)
  else if c = rawQuote then (rawLength? cs).map fun n => (.literal, n)
  else if c = '\n' then some (.newline, 0)
  else if isBlank c then some (.space, runLength isBlank cs)
  else if isIdentStart c then some (.ident, runLength isIdentRest cs)
  else if c.isDigit then some (.number, numberLength cs)
  else if c = '.' then
    match cs with
    | d :: rest => if d.isDigit then some (.number, numberLength rest + 1) else operator
    | [] => operator
  else operator

/-- The characters up to the next place where a token begins. -/
def gap : List Char → List Char
  | [] => []
  | c :: cs => if (extent? c cs).isSome then [] else c :: gap cs

/-- The tokens of a text that stands at `p`, after the lexeme `before`. A star right after a
slash would begin a comment that has no end. -/
def scanFrom (p : Position) (before : Lexeme) : List Char → Except Fault (List Token)
  | [] => .ok []
  | c :: cs =>
    match extent? c cs with
    | none => .error ⟨some p, .illegalText (String.ofList (c :: gap cs))⟩
    | some (kind, n) =>
      let text := c :: cs.take n
      let x : Lexeme := ⟨kind, String.ofList text⟩
      if x.text = "*" && before.is "/" then
        .error ⟨some ⟨p.line, p.column - 1⟩, .openComment⟩
      else
        match scanFrom (p.after text) x (cs.drop n) with
        | .ok tokens => .ok (⟨x, p⟩ :: tokens)
        | .error fault => .error fault
termination_by cs => cs.length
decreasing_by simp only [List.length_drop, List.length_cons]; omega

def scan (source : String) : Except Fault (List Token) :=
  scanFrom {} ⟨.newline, ""⟩ source.toList

end GoBindings.Go
