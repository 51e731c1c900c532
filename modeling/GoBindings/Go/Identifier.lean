import GoBindings.Text.Category
import GoBindings.Text.Pieces

/-!
# Go identifiers

Schema names become exported Go identifiers, and arbitrary text becomes the characters that an
identifier may hold.
-/

namespace GoBindings.Go

def keywords : List String :=
  ["break", "case", "chan", "const", "continue", "default", "defer", "else", "fallthrough", "for",
   "func", "go", "goto", "if", "import", "interface", "map", "package", "range", "return",
   "select", "struct", "switch", "type", "var"]

def isKeyword (s : String) : Bool := keywords.contains s

def startsLower : List Char → Bool
  | c :: _ => c.isLower
  | [] => false

/-- Words start in upper case and go on with lower-case letters. An underscore before a lower-case
letter is dropped, and a digit ends a word. `inWord` tells whether a lower-case letter goes on
with a word. -/
def camelCaseChars (inWord : Bool) : List Char → List Char
  | [] => []
  | c :: cs =>
    if inWord && c.isLower then c :: camelCaseChars true cs
    else if c = '_' && startsLower cs then camelCaseChars false cs
    else if c.isDigit then c :: camelCaseChars false cs
    else c.toUpper :: camelCaseChars true cs

/-- The exported identifier of a schema name; a leading underscore becomes `X`. -/
def camelCase (s : String) : String :=
  match s.toList with
  | '_' :: cs => String.ofList ('X' :: camelCaseChars false cs)
  | cs => String.ofList (camelCaseChars false cs)

/-- The exported identifier of a name given by its scope, outermost first. -/
def camelCaseScope (scope : List String) : String := camelCase (Text.join "_" scope)

def isNameChar (c : Char) : Bool := Text.isLetter c || Text.isDecimalDigit c || c = '_'

/-- Every character other than a letter, a decimal digit or an underscore becomes an underscore. -/
def sanitize (s : String) : String :=
  String.ofList (s.toList.map fun c => if isNameChar c then c else '_')

def startsWithDigit (s : String) : Bool :=
  match s.toList with
  | c :: _ => Text.isDecimalDigit c
  | [] => false

end GoBindings.Go
