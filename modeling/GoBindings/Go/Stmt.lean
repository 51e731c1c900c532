import GoBindings.Go.Expr

/-!
# Lines and statements

A line is a list of lexemes at a depth below the line that it belongs to.
-/

namespace GoBindings.Go

structure Line where
  depth : Nat := 0
  lexemes : List Lexeme
  deriving Repr, Inhabited

namespace Line

def text (l : Line) : String := Lexeme.spell l.lexemes

def blank : Line := { lexemes := [] }

def comment (depth : Nat) (text : String) : Line := ⟨depth, [.lineComment text]⟩

end Line

/-- Statements that fit on a line with others. -/
inductive Simple where
  | eval (e : Expr)
  | assign (left : List Expr) (op : String) (right : List Expr)
  | ret (values : List Expr)
  deriving Repr, Inhabited

namespace Simple

def lexemes : Simple → List Lexeme
  | eval e => e.lexemes
  | assign left op right =>
    Expr.listLexemes left ++ .blank :: .punct op :: .blank :: Expr.listLexemes right
  | ret values => .ident "return" :: .blank :: Expr.listLexemes values

def define (name : String) (value : Expr) : Simple := assign [.name name] ":=" [value]

def set (target value : Expr) : Simple := assign [target] "=" [value]

end Simple

mutual

inductive Stmt where
  | simple (s : Simple)
  /-- A statement with a comment after it. -/
  | noted (s : Simple) (note : String)
  | comment (text : String)
  /-- Returns values and a list of elements, one to a line. -/
  | retList (values : List Expr) (t : TypeExpr) (elems : List Expr)
  | ifThen (init : Option Simple) (cond : Expr) (body : List Stmt)
  | ifLine (cond : Expr) (s : Simple)
  | typeSwitch (var : String) (subject : Expr) (cases : List Case)
  | switchOn (subject : Expr) (cases : List Case)
  | forRange (key value : String) (subject : Expr) (body : List Stmt)

inductive Case where
  | on (label : Expr) (body : List Stmt)
  /-- A case with a comment after its label. -/
  | onNoted (label : Expr) (note : String) (body : List Stmt)
  | otherwise (body : List Stmt)

end

namespace Stmt

def noteLexemes (note : String) : List Lexeme := [.blank, .lineComment note]

mutual

def lines (depth : Nat) : Stmt → List Line
  | simple s => [⟨depth, s.lexemes⟩]
  | noted s note => [⟨depth, s.lexemes ++ noteLexemes note⟩]
  | comment text => [.comment depth text]
  | retList values t elems =>
    ⟨depth, .ident "return" :: .blank ::
        (Expr.listLexemes (values ++ [.type t]) ++ [.openBrace])⟩ ::
      (elems.map fun e => ⟨depth + 1, e.lexemes ++ [.punct ","]⟩) ++ [⟨depth, [.closeBrace]⟩]
  | ifThen init cond body =>
    let header := match init with
      | some s => s.lexemes ++ [.punct ";", .blank]
      | none => []
    ⟨depth, .ident "if" :: .blank :: (header ++ cond.lexemes ++ [.blank, .openBrace])⟩ ::
      linesAll (depth + 1) body ++ [⟨depth, [.closeBrace]⟩]
  | ifLine cond s =>
    [⟨depth, .ident "if" :: .blank :: (cond.lexemes ++ .blank :: .openBrace :: .blank ::
      (s.lexemes ++ [.blank, .closeBrace]))⟩]
  | typeSwitch var subject cases =>
    ⟨depth, .ident "switch" :: .blank :: .ident var :: .blank :: .punct ":=" :: .blank ::
        (subject.lexemes ++ [.punct ".", .punct "(", .ident "type", .punct ")", .blank,
          .openBrace])⟩ ::
      linesCases depth cases ++ [⟨depth, [.closeBrace]⟩]
  | switchOn subject cases =>
    ⟨depth, .ident "switch" :: .blank :: (subject.lexemes ++ [.blank, .openBrace])⟩ ::
      linesCases depth cases ++ [⟨depth, [.closeBrace]⟩]
  | forRange key value subject body =>
    ⟨depth, .ident "for" :: .blank :: .ident key :: .punct "," :: .blank :: .ident value ::
        .blank :: .punct ":=" :: .blank :: .ident "range" :: .blank ::
        (subject.lexemes ++ [.blank, .openBrace])⟩ ::
      linesAll (depth + 1) body ++ [⟨depth, [.closeBrace]⟩]

def linesAll (depth : Nat) : List Stmt → List Line
  | [] => []
  | s :: ss => lines depth s ++ linesAll depth ss

/-- The label of a case stands at the depth of its switch. -/
def linesCase (depth : Nat) : Case → List Line
  | .on label body =>
    ⟨depth, .ident "case" :: .blank :: (label.lexemes ++ [.punct ":"])⟩ ::
      linesAll (depth + 1) body
  | .onNoted label note body =>
    ⟨depth, .ident "case" :: .blank :: (label.lexemes ++ .punct ":" :: noteLexemes note)⟩ ::
      linesAll (depth + 1) body
  | .otherwise body =>
    ⟨depth, [.ident "default", .punct ":"]⟩ :: linesAll (depth + 1) body

def linesCases (depth : Nat) : List Case → List Line
  | [] => []
  | c :: cs => linesCase depth c ++ linesCases depth cs

end

def eval (e : Expr) : Stmt := simple (.eval e)

def define (name : String) (value : Expr) : Stmt := simple (.define name value)

def set (target value : Expr) : Stmt := simple (.set target value)

def ret (value : Expr) : Stmt := simple (.ret [value])

end Stmt

end GoBindings.Go
