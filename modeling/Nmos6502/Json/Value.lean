import Nmos6502.Json.Number

/-!
# JSON values

A JSON text as a value. Members of an object stay in their order and may repeat a key. A text is
absent where its escapes are no characters; such a value can be passed over but not used, and neither
can a number that is too large. `isUsable` tells whether a value is free of both and not nested too
deeply.
-/

namespace Nmos6502

/-- A text in JSON; absent if its escapes are no characters. -/
abbrev JsonText := Option (List Char)

/-- A JSON value. -/
inductive Json where
  | null
  | bool (b : Bool)
  | number (n : Number)
  | string (text : JsonText)
  | array (items : List Json)
  | object (members : List (JsonText × Json))

namespace Json

mutual

/-- Whether a value can be used where so many levels of arrays and objects are allowed. -/
def isUsable : Json → Nat → Bool
  | null, _ | bool _, _ => true
  | number n, _ => n.isFinite
  | string text, _ => text.isSome
  | array items, levels => levels != 0 && allUsable items (levels - 1)
  | object members, levels => levels != 0 && allMembersUsable members (levels - 1)

/-- Whether all of some values can be used. -/
def allUsable : List Json → Nat → Bool
  | [], _ => true
  | item :: items, levels => item.isUsable levels && allUsable items levels

/-- Whether the keys and the values of some members can be used. -/
def allMembersUsable : List (JsonText × Json) → Nat → Bool
  | [], _ => true
  | (key, value) :: members, levels =>
    key.isSome && value.isUsable levels && allMembersUsable members levels

end

/-- A natural number as a value. -/
def natural (n : Nat) : Json :=
  .number (.ofNat n)

/-- A value that is written as a natural number. -/
def natural? : Json → Option Nat
  | number n => n.natural?
  | _ => none

/-- The items of an array. -/
def items? : Json → Option (List Json)
  | array items => some items
  | _ => none

/-- The member with a given key: absent or there once. A key that is repeated is refused. -/
def member? (members : List (JsonText × Json)) (key : List Char) : Option (Option Json) :=
  match members.filter fun m => m.1 == some key with
  | [] => some none
  | [m] => some (some m.2)
  | _ => none

end Json

end Nmos6502
