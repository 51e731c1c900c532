import GoBindings.Go.Lexeme
import GoBindings.Text.Pieces

/-!
# Lexemes of generated code and type expressions
-/

namespace GoBindings.Go

namespace Lexeme

def ident (text : String) : Lexeme := ⟨.ident, text⟩

def punct (text : String) : Lexeme := ⟨.punct, text⟩

def literal (text : String) : Lexeme := ⟨.literal, text⟩

/-- A comment up to the end of its line; the text follows the two slashes. -/
def lineComment (text : String) : Lexeme := ⟨.comment, "//" ++ text⟩

def blank : Lexeme := ⟨.space, " "⟩

def tab : Lexeme := ⟨.space, "\t"⟩

/-- A number, with its sign as a lexeme of its own. -/
def number (text : String) : List Lexeme :=
  match text.toList with
  | '-' :: digits => [⟨.punct, "-"⟩, ⟨.number, String.ofList digits⟩]
  | '+' :: digits => [⟨.punct, "+"⟩, ⟨.number, String.ofList digits⟩]
  | _ => [⟨.number, text⟩]

def openBrace : Lexeme := punct "\x7b"

def closeBrace : Lexeme := punct "\x7d"

def spell : List Lexeme → String
  | [] => ""
  | x :: xs => x.text ++ spell xs

/-- The parts with a comma and a blank between neighbours. -/
def commaSeparated : List (List Lexeme) → List Lexeme
  | [] => []
  | [part] => part
  | part :: parts => part ++ [punct ",", blank] ++ commaSeparated parts

end Lexeme

inductive TypeExpr where
  | name (name : String)
  | qualified (package name : String)
  | pointer (elem : TypeExpr)
  | slice (elem : TypeExpr)
  | map (key value : TypeExpr)
  | anything
  deriving DecidableEq, Repr, Inhabited

namespace TypeExpr

def lexemes : TypeExpr → List Lexeme
  | name n => [.ident n]
  | qualified package n => [.ident package, .punct ".", .ident n]
  | pointer t => .punct "*" :: t.lexemes
  | slice t => .punct "[" :: .punct "]" :: t.lexemes
  | map k v => .ident "map" :: .punct "[" :: (k.lexemes ++ .punct "]" :: v.lexemes)
  | anything => [.ident "interface", .openBrace, .closeBrace]

def text (t : TypeExpr) : String := Lexeme.spell t.lexemes

def bytes : TypeExpr := slice (name "byte")

/-- Whether the text of the type begins with a star. A name counts as it is spelled. -/
def isStarred : TypeExpr → Bool
  | pointer _ => true
  | name n => n.toList.head? = some '*'
  | _ => false

/-- The type without a star at the beginning of its text. -/
def unstarred : TypeExpr → TypeExpr
  | pointer t => t
  | name n => if n.toList.head? = some '*' then name (String.ofList (n.toList.drop 1)) else name n
  | t => t

/-- `cs` without the brackets of slices at its beginning. -/
def dropBrackets : List Char → List Char
  | '[' :: ']' :: cs => dropBrackets cs
  | cs => cs

/-- Whether the elements of a slice, or the value itself, are pointers. -/
def hasStarredElem : TypeExpr → Bool
  | slice t => t.hasStarredElem
  | pointer _ => true
  | name n => (dropBrackets n.toList).head? = some '*'
  | _ => false

def packages : TypeExpr → List String
  | qualified package _ => [package]
  | pointer t => t.packages
  | slice t => t.packages
  | map k v => k.packages ++ v.packages
  | _ => []

end TypeExpr

end GoBindings.Go
