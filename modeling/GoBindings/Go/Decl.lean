import GoBindings.Go.Stmt

/-!
# Declarations
-/

namespace GoBindings.Go

structure Param where
  names : List String
  type : TypeExpr
  deriving Repr, Inhabited

inductive Results (α : Type) where
  | none
  | one (t : α)
  | many (ts : List α)
  | named (name : String) (t : α)
  deriving Repr, Inhabited

structure FuncType where
  params : List Param
  results : Results TypeExpr := .none
  deriving Repr, Inhabited

inductive ResultType where
  | type (t : TypeExpr)
  | func (f : FuncType)
  deriving Repr, Inhabited

structure Receiver where
  name : Option String
  pointer : Bool
  type : String
  deriving Repr, Inhabited

inductive Body where
  | empty
  /-- One statement on the line of the function. -/
  | line (s : Simple)
  | block (body : List Stmt)

structure Func where
  receiver : Option Receiver := none
  name : String
  params : List Param := []
  results : Results ResultType := .none
  body : Body

inductive ValueSort where
  | const
  | var
  deriving DecidableEq, Repr, Inhabited

/-- The keys of a struct tag, each with its quoted value. -/
structure StructTag where
  parts : List (String × String)
  deriving DecidableEq, Repr, Inhabited

inductive Member where
  | comment (text : String)
  | field (name : String) (type : TypeExpr) (tag : StructTag)
  | union (name interface : String) (tag : StructTag)
  | embedded (type : TypeExpr) (tag : StructTag)
  /-- The field for bytes that were not understood. -/
  | unrecognized (name : String) (tag : StructTag)
  deriving Repr, Inhabited

inductive ConstEntry where
  | comment (text : String)
  | constant (name type : String) (number : Int32)
  deriving Repr, Inhabited

/-- A line of a composite literal. -/
inductive Entry where
  | comment (text : String)
  | keyed (key value : Expr)
  /-- Values in braces. -/
  | group (values : List Expr)
  /-- Values with a comma after each and no blanks. -/
  | row (values : List Expr)
  deriving Repr, Inhabited

inductive ImportEntry where
  | named (name path : String)
  /-- An import that is only mentioned. -/
  | weak (name path : String)
  deriving DecidableEq, Repr, Inhabited

inductive Decl where
  | blank
  | comment (text : String)
  | blockComment (lines : List String)
  | package (name : String)
  | imports (entries : List ImportEntry)
  | value (sort : ValueSort) (name : String) (type : Option TypeExpr) (value : Expr)
      (note : Option String)
  | constants (entries : List ConstEntry)
  | typeDef (name : String) (type : TypeExpr)
  | struct (name : String) (members : List Member)
  /-- A struct with one field, on one line. -/
  | wrapper (name field : String) (type : TypeExpr) (tag : StructTag)
  /-- An interface with one method, on one line. -/
  | interface (name method : String)
  /-- A variable with the entries of its literal one to a line, or a pointer to such a literal. -/
  | table (name : String) (pointer : Bool) (type : TypeExpr) (entries : List Entry)
  | func (f : Func)

namespace Param

def lexemes (p : Param) : List Lexeme :=
  Lexeme.commaSeparated (p.names.map fun n => [.ident n]) ++ .blank :: p.type.lexemes

def listLexemes (ps : List Param) : List Lexeme :=
  .punct "(" :: (Lexeme.commaSeparated (ps.map lexemes) ++ [.punct ")"])

end Param

/-- The results after the parameters, with a blank before them. -/
def Results.lexemes {α : Type} (print : α → List Lexeme) : Results α → List Lexeme
  | .none => []
  | .one t => .blank :: print t
  | .many ts =>
    .blank :: .punct "(" :: (Lexeme.commaSeparated (ts.map print) ++ [.punct ")"])
  | .named n t => .blank :: .punct "(" :: .ident n :: .blank :: (print t ++ [.punct ")"])

def FuncType.lexemes (f : FuncType) : List Lexeme :=
  Param.listLexemes f.params ++ f.results.lexemes TypeExpr.lexemes

def ResultType.lexemes : ResultType → List Lexeme
  | .type t => t.lexemes
  | .func f => .ident "func" :: f.lexemes

def Receiver.lexemes (r : Receiver) : List Lexeme :=
  let name := match r.name with
    | some n => [.ident n, .blank]
    | none => []
  .punct "(" :: (name ++ (if r.pointer then [.punct "*"] else []) ++
    [.ident r.type, .punct ")", .blank])

namespace Func

def header (f : Func) : List Lexeme :=
  let receiver := match f.receiver with
    | some r => r.lexemes
    | none => []
  .ident "func" :: .blank :: (receiver ++ .ident f.name :: (Param.listLexemes f.params ++
    f.results.lexemes ResultType.lexemes ++ [.blank]))

def lines (f : Func) : List Line :=
  match f.body with
  | .empty => [⟨0, f.header ++ [.openBrace, .closeBrace]⟩]
  | .line s => [⟨0, f.header ++ .openBrace :: .blank :: (s.lexemes ++ [.blank, .closeBrace])⟩]
  | .block body =>
    ⟨0, f.header ++ [.openBrace]⟩ :: Stmt.linesAll 1 body ++ [⟨0, [.closeBrace]⟩]

end Func

def ValueSort.keyword : ValueSort → String
  | const => "const"
  | var => "var"

namespace StructTag

def text (t : StructTag) : String :=
  Text.join " " (t.parts.map fun (key, value) => key ++ ":" ++ value)

def lexeme (t : StructTag) : Lexeme := .literal ("`" ++ t.text ++ "`")

end StructTag

def Member.line : Member → Line
  | comment text => .comment 1 text
  | field name type tag => ⟨1, .ident name :: .tab :: (type.lexemes ++ [.tab, tag.lexeme])⟩
  | union name interface tag => ⟨1, [.ident name, .blank, .ident interface, .blank, tag.lexeme]⟩
  | embedded type tag => ⟨1, type.lexemes ++ [.blank, tag.lexeme]⟩
  | unrecognized name tag =>
    ⟨1, .ident name :: .tab :: (TypeExpr.bytes.lexemes ++ [.blank, tag.lexeme])⟩

def ConstEntry.line : ConstEntry → Line
  | comment text => .comment 1 text
  | constant name type n =>
    ⟨1, .ident name :: .blank :: .ident type :: .blank :: .punct "=" :: .blank ::
      Lexeme.number (toString n.toInt)⟩

def Entry.line : Entry → Line
  | comment text => .comment 1 text
  | keyed key value => ⟨1, key.lexemes ++ .punct ":" :: .blank :: (value.lexemes ++ [.punct ","])⟩
  | group values => ⟨1, .openBrace :: (Expr.listLexemes values ++ [.closeBrace, .punct ","])⟩
  | row values => ⟨1, values.flatMap fun v => v.lexemes ++ [.punct ","]⟩

def ImportEntry.line : ImportEntry → Line
  | named name path => ⟨1, [.ident name, .blank, .literal (Text.quote path)]⟩
  | weak name path => .comment 1 (" skipping weak import " ++ name ++ " " ++ Text.quote path)

def Decl.lines : Decl → List Line
  | blank => [.blank]
  | comment text => [.comment 0 text]
  | blockComment lines => [⟨0, [⟨.comment, Text.join "\n" lines⟩]⟩]
  | package name => [⟨0, [.ident "package", .blank, .ident name]⟩]
  | imports entries =>
    ⟨0, [.ident "import", .blank, .punct "("]⟩ :: entries.map ImportEntry.line ++
      [⟨0, [.punct ")"]⟩]
  | value sort name type e note =>
    let typeLexemes := match type with
      | some t => .blank :: t.lexemes
      | none => []
    let noteLexemes := match note with
      | some note => Stmt.noteLexemes note
      | none => []
    [⟨0, .ident sort.keyword :: .blank :: .ident name :: (typeLexemes ++
      .blank :: .punct "=" :: .blank :: (e.lexemes ++ noteLexemes))⟩]
  | constants entries =>
    ⟨0, [.ident "const", .blank, .punct "("]⟩ :: entries.map ConstEntry.line ++
      [⟨0, [.punct ")"]⟩]
  | typeDef name type => [⟨0, .ident "type" :: .blank :: .ident name :: .blank :: type.lexemes⟩]
  | struct name members =>
    ⟨0, [.ident "type", .blank, .ident name, .blank, .ident "struct", .blank, .openBrace]⟩ ::
      members.map Member.line ++ [⟨0, [.closeBrace]⟩]
  | wrapper name field type tag =>
    [⟨0, .ident "type" :: .blank :: .ident name :: .blank :: .ident "struct" :: .openBrace ::
      .blank :: .ident field :: .blank :: (type.lexemes ++
        [.blank, tag.lexeme, .blank, .closeBrace])⟩]
  | interface name method =>
    [⟨0, [.ident "type", .blank, .ident name, .blank, .ident "interface", .blank, .openBrace,
      .blank, .ident method, .punct "(", .punct ")", .blank, .closeBrace]⟩]
  | table name pointer type entries =>
    ⟨0, .ident "var" :: .blank :: .ident name :: .blank :: .punct "=" :: .blank ::
        ((if pointer then [.punct "&"] else []) ++ type.lexemes ++ [.openBrace])⟩ ::
      entries.map Entry.line ++ [⟨0, [.closeBrace]⟩]
  | func f => f.lines

end GoBindings.Go
