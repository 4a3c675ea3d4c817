import Nmos6502.Json.Layout
import Nmos6502.Json.Token

/-!
# Texts of JSON

Which texts spell which values (`Json.Spells`), as the grammar of JSON has it, for values without
surprises (`Json.IsPlain`): their numbers are natural and held exactly by a double, and their texts
need no escapes. Blanks may stand around every value and every key.
-/

namespace Nmos6502

/-- Whether a character stands for itself in a string. -/
def Token.isPlain (c : Char) : Bool :=
  c != '"' && c != '\\' && 0x20 ≤ c.toNat

namespace Json

/-- Numbers below this one are held exactly by a double. -/
def exactNumbers : Nat := Nat.pow 2 53

mutual

/-- A value all of whose numbers are natural and exact, and whose texts and keys need no escapes. -/
inductive IsPlain : Json → Prop
  | null : IsPlain .null
  | bool (b : Bool) : IsPlain (.bool b)
  | natural {n : Nat} : n < exactNumbers → IsPlain (.natural n)
  | string {text : List Char} : text.all Token.isPlain = true → IsPlain (.string (some text))
  | array {items : List Json} : AllPlain items → IsPlain (.array items)
  | object {members : List (JsonText × Json)} : AllMembersPlain members → IsPlain (.object members)

/-- All of some values are plain. -/
inductive AllPlain : List Json → Prop
  | nil : AllPlain []
  | cons {item : Json} {items : List Json} : IsPlain item → AllPlain items →
      AllPlain (item :: items)

/-- The keys and the values of some members are plain. -/
inductive AllMembersPlain : List (JsonText × Json) → Prop
  | nil : AllMembersPlain []
  | cons {key : List Char} {value : Json} {members : List (JsonText × Json)} :
      key.all Token.isPlain = true → IsPlain value → AllMembersPlain members →
      AllMembersPlain ((some key, value) :: members)

end

mutual

/-- How many arrays and objects lie within each other. -/
def depth : Json → Nat
  | null | bool _ | number _ | string _ => 0
  | array items => depthOfItems items + 1
  | object members => depthOfMembers members + 1

/-- The depth of the deepest of some values. -/
def depthOfItems : List Json → Nat
  | [] => 0
  | item :: items => max item.depth (depthOfItems items)

/-- The depth of the deepest value of some members. -/
def depthOfMembers : List (JsonText × Json) → Nat
  | [] => 0
  | (_, value) :: members => max value.depth (depthOfMembers members)

end

/-- A text with blanks around it. -/
def Pads (core text : List Char) : Prop :=
  ∃ before after, before.all Token.isSpace = true ∧ after.all Token.isSpace = true ∧
    text = before ++ core ++ after

/-- Some parts with commas between them, in brackets or braces. Without parts there may be blanks. -/
def Encloses (opening closing : Char) (parts : List (List Char)) (text : List Char) : Prop :=
  ∃ blanks, blanks.all Token.isSpace = true ∧
    text = opening :: [','].intercalate parts ++ blanks ++ [closing]

mutual

/-- A text spells a value. -/
inductive Spells : Json → List Char → Prop
  | null : Spells .null ['n', 'u', 'l', 'l']
  | true : Spells (.bool true) ['t', 'r', 'u', 'e']
  | false : Spells (.bool false) ['f', 'a', 'l', 's', 'e']
  | natural {n : Nat} : n < exactNumbers → Spells (.natural n) (Decimal.digits n)
  | string {text : List Char} : text.all Token.isPlain = true →
      Spells (.string (some text)) (quoted text)
  | array {items : List Json} {parts : List (List Char)} {text : List Char} :
      SpellsItems items parts → Encloses '[' ']' parts text → Spells (.array items) text
  | object {members : List (JsonText × Json)} {parts : List (List Char)} {text : List Char} :
      SpellsMembers members parts → Encloses '\x7b' '\x7d' parts text →
      Spells (.object members) text

/-- Some texts spell the items of an array. -/
inductive SpellsItems : List Json → List (List Char) → Prop
  | nil : SpellsItems [] []
  | cons {item : Json} {core text : List Char} {items : List Json} {parts : List (List Char)} :
      Spells item core → Pads core text → SpellsItems items parts →
      SpellsItems (item :: items) (text :: parts)

/-- Some texts spell the members of an object. -/
inductive SpellsMembers : List (JsonText × Json) → List (List Char) → Prop
  | nil : SpellsMembers [] []
  | cons {key keyText core text : List Char} {value : Json} {members : List (JsonText × Json)}
      {parts : List (List Char)} : key.all Token.isPlain = true → Pads (quoted key) keyText →
      Spells value core → Pads core text → SpellsMembers members parts →
      SpellsMembers ((some key, value) :: members) ((keyText ++ ':' :: text) :: parts)

end

end Json

end Nmos6502
