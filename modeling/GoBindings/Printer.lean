import GoBindings.Text.Dict
import GoBindings.Text.Pieces

/-!
# Printers

A printer collects lines of text and the packages they refer to. A disabled printer drops the
text and keeps the packages.
-/

namespace GoBindings

structure Printer where
  enabled : Bool
  body : String := ""
  depth : Nat := 0
  packages : Dict Unit := {}
  deriving DecidableEq, Repr, Inhabited

namespace Printer

/-- The text of a line: tabs for its depth, unless it is empty, and a line feed. -/
def lineText (depth : Nat) (text : String) : String :=
  (if text = "" then "" else Text.repeated depth '\t' ++ text) ++ "\n"

def line (p : Printer) (text : String) : Printer :=
  if p.enabled then { p with body := p.body ++ lineText p.depth text } else p

def blank (p : Printer) : Printer := p.line ""

def indent (p : Printer) : Printer := { p with depth := p.depth + 1 }

def outdent (p : Printer) : Printer := { p with depth := p.depth - 1 }

def usePackage (p : Printer) (pkg : String) : Printer :=
  { p with packages := p.packages.insert pkg () }

def usePackages (p : Printer) (pkgs : List String) : Printer := pkgs.foldl usePackage p

def isUsed (p : Printer) (pkg : String) : Bool := p.packages.contains pkg

/-- The packages in ascending order. -/
def used (p : Printer) : List String := p.packages.keys

end Printer

end GoBindings
