import Nmos6502.Json.Value

/-!
# Writing JSON

A value laid out over several lines: the items of an array and the members of an object stand on lines
of their own, indented by two blanks for each level (`Json.layout`).
-/

namespace Nmos6502

namespace Json

/-- A text between quotes. Characters that need an escape have no place in it. -/
def quoted (text : List Char) : List Char :=
  '"' :: text ++ ['"']

/-- The beginning of a line that is indented by some levels. -/
def newLine (level : Nat) : List Char :=
  '\n' :: List.replicate (2 * level) ' '

/-- Items between an opening and a closing, each on a line of its own and indented one level more than
the closing. Without items the closing follows the opening at once. -/
def block (opening closing : Char) (level : Nat) : List (List Char) → List Char
  | [] => [opening, closing]
  | items =>
    opening :: newLine (level + 1) ++ (',' :: newLine (level + 1)).intercalate items ++
      newLine level ++ [closing]

mutual

/-- A value on a line of some level, and on further lines. -/
def layout (level : Nat) : Json → List Char
  | null => ['n', 'u', 'l', 'l']
  | bool true => ['t', 'r', 'u', 'e']
  | bool false => ['f', 'a', 'l', 's', 'e']
  | number n => n.text
  | string text => quoted (text.getD [])
  | array items => block '[' ']' level (layoutItems (level + 1) items)
  | object members => block '\x7b' '\x7d' level (layoutMembers (level + 1) members)

/-- Some values, each for itself. -/
def layoutItems (level : Nat) : List Json → List (List Char)
  | [] => []
  | item :: items => item.layout level :: layoutItems level items

/-- Some members, each for itself. -/
def layoutMembers (level : Nat) : List (JsonText × Json) → List (List Char)
  | [] => []
  | (key, value) :: members =>
    (quoted (key.getD []) ++ [':', ' '] ++ value.layout level) :: layoutMembers level members

end

end Json

end Nmos6502
