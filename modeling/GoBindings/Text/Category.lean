import GoBindings.Text.Ranges

/-!
# Character classes

Letters, decimal digits and numbers in any script, and the characters that a quoted display
never shows as themselves.
-/

namespace GoBindings.Text

def isLetter (c : Char) : Bool := inRanges c.toNat letterRanges

def isDecimalDigit (c : Char) : Bool := inRanges c.toNat decimalDigitRanges

def isNumber (c : Char) : Bool := inRanges c.toNat numberRanges

def isHidden (c : Char) : Bool := inRanges c.toNat hiddenRanges

end GoBindings.Text
