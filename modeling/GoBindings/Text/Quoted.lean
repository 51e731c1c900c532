/-!
# Quoted text

A quoted text stands between double quotes. The quote, the backslash and the characters below
the blank are escaped, all others stand for themselves, so that the result is one string literal
on one line.
-/

namespace GoBindings.Text

def escape (c : Char) : List Char :=
  if c = '"' then ['\\', '"']
  else if c = '\\' then ['\\', '\\']
  else if c = '\x08' then ['\\', 'b']
  else if c = '\x0c' then ['\\', 'f']
  else if c = '\n' then ['\\', 'n']
  else if c = '\r' then ['\\', 'r']
  else if c = '\t' then ['\\', 't']
  else if c.toNat < 0x20 then
    ['\\', 'u', '0', '0', Nat.digitChar (c.toNat / 16), Nat.digitChar (c.toNat % 16)]
  else [c]

def quoteChars (cs : List Char) : List Char := '"' :: (cs.flatMap escape ++ ['"'])

def quote (s : String) : String := String.ofList (quoteChars s.toList)

def hexValue? (c : Char) : Option Nat :=
  if '0' ≤ c ∧ c ≤ '9' then some (c.toNat - '0'.toNat)
  else if 'a' ≤ c ∧ c ≤ 'f' then some (c.toNat - 'a'.toNat + 10)
  else if 'A' ≤ c ∧ c ≤ 'F' then some (c.toNat - 'A'.toNat + 10)
  else none

/-- The character that a letter after a backslash stands for. -/
def escaped? : Char → Option Char
  | '"' => some '"'
  | '\\' => some '\\'
  | 'b' => some '\x08'
  | 'f' => some '\x0c'
  | 'n' => some '\n'
  | 'r' => some '\r'
  | 't' => some '\t'
  | _ => none

/-- Reads escaped characters up to the closing quote, which has to be the last character. -/
def unescape? : List Char → Option (List Char)
  | [] => none
  | ['"'] => some []
  | '\\' :: 'u' :: a :: b :: c :: d :: rest => do
    let high := (← hexValue? a) * 16 + (← hexValue? b)
    let n := (high * 16 + (← hexValue? c)) * 16 + (← hexValue? d)
    return Char.ofNat n :: (← unescape? rest)
  | '\\' :: c :: rest => do return (← escaped? c) :: (← unescape? rest)
  | c :: rest => if c = '"' then none else do return c :: (← unescape? rest)

def unquote? (s : String) : Option String :=
  match s.toList with
  | '"' :: rest => (unescape? rest).map String.ofList
  | _ => none

end GoBindings.Text
