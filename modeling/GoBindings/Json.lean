import GoBindings.Text.Pieces
import GoBindings.Text.Quoted

/-!
# JSON text

Values are printed over several lines, two blanks for each level, members in the given order.
-/

namespace GoBindings

inductive Json where
  | null
  | bool (b : Bool)
  | text (s : String)
  | list (items : List Json)
  | object (members : List (String × Json))
  deriving Repr, Inhabited

namespace Json

/-- A line feed and the blanks of a level. -/
def newline (level : Nat) : String := "\n" ++ Text.repeated (2 * level) ' '

/-- Items between brackets on lines of their own, or nothing between them. -/
def bracketed (opening closing : String) (level : Nat) (items : List String) : String :=
  if items.isEmpty then opening ++ closing
  else opening ++ newline (level + 1) ++ Text.join ("," ++ newline (level + 1)) items ++
    newline level ++ closing

mutual

/-- The text of a value that starts on a line of some level. -/
def render (level : Nat) : Json → String
  | null => "null"
  | bool b => if b then "true" else "false"
  | text s => Text.quote s
  | list items => bracketed "[" "]" level (renderItems (level + 1) items)
  | object members => bracketed "\x7b" "\x7d" level (renderMembers (level + 1) members)

def renderItems (level : Nat) : List Json → List String
  | [] => []
  | item :: items => render level item :: renderItems level items

def renderMembers (level : Nat) : List (String × Json) → List String
  | [] => []
  | (key, value) :: members =>
    (Text.quote key ++ ": " ++ render level value) :: renderMembers level members

end

def pretty (j : Json) : String := j.render 0

def texts (items : List String) : Json := list (items.map text)

end Json

end GoBindings
