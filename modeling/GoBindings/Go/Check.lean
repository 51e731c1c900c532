import GoBindings.Go.Scan
import GoBindings.Go.Statement

/-!
# Checking a source

A source is accepted when its brackets nest, it starts with a package clause, goes on with imports
and then with other declarations, and declares no name twice. Function bodies, types and values
are not looked into.
-/

namespace GoBindings.Go

abbrev Statement := List Token

/-- The names declared so far and whether imports are over. -/
structure Declared where
  values : List String := []
  methods : List (String × String) := []
  importsDone : Bool := false

/-- The tokens between the parentheses of a grouped declaration. -/
def groupOf? (s : Statement) : Option Statement :=
  match s with
  | _ :: t :: rest =>
    if t.is "(" && s.getLast?.any (·.is ")") then some rest.dropLast else none
  | _ => none

/-- The specs of a declaration: those of a group, or the rest of the statement. -/
def specsOf (s : Statement) : List Statement :=
  match groupOf? s with
  | some inner => statements inner
  | none => [s.drop 1]

def define (d : Declared) (t : Token) : Except Fault Declared :=
  if t.kind ≠ .ident then .error ⟨some t.position, .notAName t.text⟩
  else if t.text = "_" then .ok d
  else if d.values.contains t.text then .error ⟨some t.position, .redeclared t.text⟩
  else .ok { d with values := t.text :: d.values }

/-- Declares a method, given the tokens of its statement from the receiver on. -/
def defineMethod (d : Declared) (keyword : Token) (fromReceiver : List Token) :
    Except Fault Declared :=
  let inside := fromReceiver.takeWhile fun t => !t.is ")"
  let receiver := ((inside.reverse.find? (·.kind = .ident)).map (·.text)).getD ""
  match fromReceiver.drop (inside.length + 1) with
  | [] => .error ⟨some keyword.position, .noMethodName⟩
  | name :: _ =>
    if name.kind ≠ .ident then .error ⟨some name.position, .noMethodName⟩
    else if d.methods.contains (receiver, name.text) then
      .error ⟨some name.position, .methodRedeclared receiver name.text⟩
    else .ok { d with methods := (receiver, name.text) :: d.methods }

/-- Declares a function or a method. Any number of functions may be called `init`. -/
def defineFunc (d : Declared) (keyword : Token) : List Token → Except Fault Declared
  | [] => .error ⟨some keyword.position, .noFunctionName⟩
  | t :: rest =>
    if t.is "(" then defineMethod d keyword rest
    else if t.is "init" then .ok d
    else define d t

/-- Declares the names of a variable or constant spec, which stand between commas. -/
def defineValues (d : Declared) : Statement → Except Fault Declared
  | [] => .ok d
  | t :: comma :: rest =>
    match define d t with
    | .error fault => .error fault
    | .ok d => if comma.is "," then defineValues d rest else .ok d
  | [t] => define d t

def defineType (d : Declared) : Statement → Except Fault Declared
  | [] => .ok d
  | t :: _ => define d t

/-- An import path is a double-quoted literal. -/
def checkImportPath (path : Token) : Except Fault Unit :=
  if path.kind = .literal && path.text.toList.head? = some '"' then .ok ()
  else .error ⟨some path.position, .importPath⟩

/-- An import spec is a path, with a name or a dot before it if need be. -/
def checkImport : Statement → Except Fault Unit
  | [path] => checkImportPath path
  | [name, path] =>
    if name.kind = .ident || name.is "." then checkImportPath path
    else .error ⟨some name.position, .malformedImport⟩
  | spec => .error (.at? spec.head? .malformedImport)

def checkImports (specs : List Statement) : Except Fault Unit := specs.forM checkImport

def checkDeclaration (d : Declared) (keyword : Token) (s : Statement) : Except Fault Declared :=
  if keyword.is "import" then
    if d.importsDone then .error ⟨some keyword.position, .lateImport⟩
    else do
      checkImports (specsOf s)
      return d
  else
    let d := { d with importsDone := true }
    if keyword.is "func" then defineFunc d keyword (s.drop 1)
    else if keyword.is "type" then (specsOf s).foldlM defineType d
    else if keyword.is "var" || keyword.is "const" then (specsOf s).foldlM defineValues d
    else .error ⟨some keyword.position, .notADeclaration keyword.text⟩

def checkStatement (d : Declared) (s : Statement) : Except Fault Declared :=
  match s with
  | [] => .ok d
  | keyword :: _ => checkDeclaration d keyword s

def isPackageClause : Statement → Bool
  | [keyword, name] => keyword.is "package" && name.kind = .ident
  | _ => false

def checkStatements : List Statement → Except Fault Unit
  | [] => .error ⟨none, .endOfSource⟩
  | first :: rest =>
    if isPackageClause first then do
      let _ ← rest.foldlM checkStatement {}
      return ()
    else .error (.at? first.head? .noPackageClause)

def checkTokens (tokens : List Token) : Except Fault Unit :=
  match bracketFault? [] tokens with
  | some fault => .error fault
  | none => checkStatements (statements (tokens.filter fun t => !t.isTrivia || t.endsLine))

def checkedTokens (source : String) : Except Fault (List Token) := do
  let tokens ← scan source
  checkTokens tokens
  return tokens

/-- Accepts a source or tells what is wrong with it. -/
def check (source : String) : Except BadSource Unit :=
  match checkedTokens source with
  | .ok _ => .ok ()
  | .error fault => .error ⟨fault, source⟩

end GoBindings.Go
