import GoBindings.Go.Lexeme
import GoBindings.Text.Listing
import GoBindings.Text.Quoted

/-!
# Faults of a source

What can be wrong with a Go source, where, and how it is reported.
-/

namespace GoBindings.Go

inductive Cause where
  | illegalText (text : String)
  | openComment
  | wrongCloser (expected opener : String) (at_ : Position) (found : String)
  | strayCloser (text : String)
  | unclosed (opener : String)
  | noPackageClause
  | endOfSource
  | notADeclaration (text : String)
  | lateImport
  | malformedImport
  | importPath
  | noMethodName
  | noFunctionName
  | notAName (text : String)
  | redeclared (name : String)
  | methodRedeclared (receiver name : String)
  deriving DecidableEq, Repr

def Position.text (p : Position) : String := toString p.line ++ ":" ++ toString p.column

def Cause.message : Cause → String
  | illegalText text => "illegal character or unterminated literal " ++ Text.quote text
  | openComment => "comment not terminated"
  | wrongCloser expected opener at_ found =>
    "expected " ++ Text.quote expected ++ " to close " ++ Text.quote opener ++ " at " ++ at_.text ++
      ", found " ++ Text.quote found
  | strayCloser text => "unexpected " ++ Text.quote text
  | unclosed opener => "unexpected EOF, " ++ Text.quote opener ++ " is never closed"
  | noPackageClause => "expected package clause"
  | endOfSource => "expected package clause, found EOF"
  | notADeclaration text =>
    "non-declaration statement outside function body: " ++ Text.quote text
  | lateImport => "imports must appear before other declarations"
  | malformedImport => "malformed import"
  | importPath => "import path must be a string"
  | noMethodName => "expected method name"
  | noFunctionName => "expected function name"
  | notAName text => "expected name, found " ++ Text.quote text
  | redeclared name => name ++ " redeclared in this block"
  | methodRedeclared receiver name => "method " ++ receiver ++ "." ++ name ++ " already declared"

structure Fault where
  position : Option Position
  cause : Cause
  deriving DecidableEq, Repr

namespace Fault

/-- A fault at a token, or at no place if there is none. -/
def at? (token : Option Token) (cause : Cause) : Fault := ⟨token.map (·.position), cause⟩

def message (f : Fault) : String :=
  match f.position with
  | some p => p.text ++ ": " ++ f.cause.message
  | none => f.cause.message

end Fault

structure BadSource where
  fault : Fault
  source : String
  deriving DecidableEq, Repr

/-- The fault, then the source with its lines numbered. -/
def BadSource.message (b : BadSource) : String :=
  b.fault.message ++ "\n" ++ Text.numberedListing b.source

end GoBindings.Go
