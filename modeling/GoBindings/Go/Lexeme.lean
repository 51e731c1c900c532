/-!
# Lexemes and tokens

A lexeme is a piece of Go text with its lexical class. A token is a lexeme at a place of a source:
its line, and its column in bytes, both counted from one.
-/

namespace GoBindings.Go

inductive Kind where
  | comment
  /-- Interpreted, raw and rune literals. -/
  | literal
  | ident
  | number
  | punct
  | space
  | newline
  deriving DecidableEq, Repr, Inhabited

structure Lexeme where
  kind : Kind
  text : String
  deriving DecidableEq, Repr, Inhabited

structure Position where
  line : Nat := 1
  column : Nat := 1
  deriving DecidableEq, Repr, Inhabited

def Position.next (p : Position) (c : Char) : Position :=
  if c = '\n' then ⟨p.line + 1, 1⟩ else ⟨p.line, p.column + c.utf8Size⟩

def Position.after (p : Position) (text : List Char) : Position := text.foldl Position.next p

structure Token extends Lexeme where
  position : Position
  deriving DecidableEq, Repr, Inhabited

namespace Lexeme

/-- Whether the lexeme is the given word or operator. Literals and comments never are. -/
def is (x : Lexeme) (text : String) : Bool :=
  x.kind ≠ .literal && x.kind ≠ .comment && x.text = text

/-- Comments and blanks, which mean nothing to a parser. -/
def isTrivia (x : Lexeme) : Bool := x.kind = .comment || x.kind = .space

/-- Line feeds, and comments that hold one. -/
def endsLine (x : Lexeme) : Bool :=
  x.kind = .newline || (x.kind = .comment && x.text.toList.contains '\n')

def isOpener (x : Lexeme) : Bool :=
  x.kind = .punct && (x.text = "(" || x.text = "[" || x.text = "\x7b")

def isCloser (x : Lexeme) : Bool :=
  x.kind = .punct && (x.text = ")" || x.text = "]" || x.text = "\x7d")

end Lexeme

end GoBindings.Go
