import GoBindings.Go.TypeExpr
import GoBindings.Text.Quoted

/-!
# Expressions
-/

namespace GoBindings.Go

inductive Expr where
  | name (name : String)
  | qualified (package name : String)
  | type (t : TypeExpr)
  /-- A number as it is spelled, with a sign or without. -/
  | number (text : String)
  /-- A literal as it is spelled. -/
  | literal (text : String)
  | select (e : Expr) (field : String)
  | call (f : Expr) (args : List Expr)
  | paren (e : Expr)
  | star (e : Expr)
  | address (e : Expr)
  | index (e i : Expr)
  | composite (t : TypeExpr) (elems : List Expr)
  | assert (e : Expr) (t : TypeExpr)
  /-- Two operands with blanks around the operator. -/
  | binary (left : Expr) (op : String) (right : Expr)
  /-- Two operands with no blanks around the operator. -/
  | tight (left : Expr) (op : String) (right : Expr)
  /-- The last argument of a call, spread over the rest of its parameters. -/
  | spread (e : Expr)
  deriving Repr, Inhabited

namespace Expr

mutual

def lexemes : Expr → List Lexeme
  | name n => [.ident n]
  | qualified package n => [.ident package, .punct ".", .ident n]
  | type t => t.lexemes
  | number text => Lexeme.number text
  | literal text => [.literal text]
  | select e field => e.lexemes ++ [.punct ".", .ident field]
  | call f args => f.lexemes ++ .punct "(" :: (listLexemes args ++ [.punct ")"])
  | paren e => .punct "(" :: (e.lexemes ++ [.punct ")"])
  | star e => .punct "*" :: e.lexemes
  | address e => .punct "&" :: e.lexemes
  | index e i => e.lexemes ++ .punct "[" :: (i.lexemes ++ [.punct "]"])
  | composite t elems => t.lexemes ++ .openBrace :: (listLexemes elems ++ [.closeBrace])
  | assert e t => e.lexemes ++ .punct "." :: .punct "(" :: (t.lexemes ++ [.punct ")"])
  | binary left op right =>
    left.lexemes ++ .blank :: .punct op :: .blank :: right.lexemes
  | tight left op right => left.lexemes ++ .punct op :: right.lexemes
  | spread e => e.lexemes ++ [.punct "..."]

/-- Expressions with a comma and a blank between neighbours. -/
def listLexemes : List Expr → List Lexeme
  | [] => []
  | [e] => e.lexemes
  | e :: es => e.lexemes ++ .punct "," :: .blank :: listLexemes es

end

def quoted (s : String) : Expr := literal (Text.quote s)

def int (n : Int) : Expr := number (toString n)

def nat (n : Nat) : Expr := number (toString n)

def nil : Expr := name "nil"

def method (e : Expr) (m : String) (args : List Expr) : Expr := call (select e m) args

/-- A conversion to a type in parentheses. -/
def convert (t : TypeExpr) (e : Expr) : Expr := call (paren (type t)) [e]

def nilPointer (t : String) : Expr := convert (.pointer (.name t)) nil

def notNil (e : Expr) : Expr := binary e "!=" nil

end Expr

end GoBindings.Go
