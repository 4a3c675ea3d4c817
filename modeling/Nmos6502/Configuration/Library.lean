import Mathlib.Data.List.Forall2
import Nmos6502.Configuration.Text
import Nmos6502.Json.Grammar

/-!
# Configurations by way of a library

A configuration is read from a text and written as one by a library (`JsonLibrary`). It makes a value of
a text and a text of a value, and from the declaration of configurations it derives how these are read
from values and written as values. Nothing more is known of a library than what is documented of it
(`JsonLibrary.IsDocumented`): it follows the grammar of JSON, lays out what it writes, and takes a device
for an object that is tagged by its kind. The functions of this development make up such a library
(`JsonLibrary.own`).
-/

namespace Nmos6502

/-- A library that reads and writes configurations as JSON. -/
structure JsonLibrary where
  /-- The value that a text stands for. -/
  parse? : List Char → Option Json
  /-- A value as a text over several lines. -/
  print? : Json → Option (List Char)
  /-- The configuration that a value describes. -/
  ofValue? : Json → Option Configuration
  /-- A configuration as a value. -/
  toValue : Configuration → Json

namespace Json

/-- An object has a member once, and this is its value. -/
def Has (members : List (JsonText × Json)) (key : List Char) (value : Json) : Prop :=
  member? members key = some (some value)

/-- An object is tagged by a kind of device. -/
def HasKind (members : List (JsonText × Json)) (kind : DeviceKind) : Prop :=
  Has members kindKey (.string (some kind.name))

/-- A member of an object is an address. -/
def HasAddress (members : List (JsonText × Json)) (key : List Char) (a : UInt16) : Prop :=
  Has members key (.natural a.toNat)

/-- A value describes a device. Without an image a ROM has an empty one. -/
inductive Describes : Json → Description → Prop
  | ram {members : List (JsonText × Json)} {first last : UInt16} : HasKind members .ram →
      HasAddress members startKey first → HasAddress members endKey last →
      Describes (.object members) (.ram first last)
  | rom {members : List (JsonText × Json)} {first last : UInt16} {image : List UInt8} :
      HasKind members .rom → HasAddress members startKey first → HasAddress members endKey last →
      Has members imageKey (.array (image.map fun b => .natural b.toNat)) →
      Describes (.object members) (.rom first last image)
  | romWithoutImage {members : List (JsonText × Json)} {first last : UInt16} :
      HasKind members .rom → HasAddress members startKey first → HasAddress members endKey last →
      member? members imageKey = some none → Describes (.object members) (.rom first last [])
  | pia {members : List (JsonText × Json)} {first : UInt16} : HasKind members .pia →
      HasAddress members startKey first → Describes (.object members) (.pia first)
  | screen {members : List (JsonText × Json)} {first : UInt16} : HasKind members .screen →
      HasAddress members startKey first → Describes (.object members) (.screen first)

/-- A value describes a configuration: it lists its devices in their order. -/
def Configures (value : Json) (c : Configuration) : Prop :=
  ∃ members items, value = .object members ∧ Has members devicesKey (.array items) ∧
    List.Forall₂ Describes items c.devices

end Json

namespace JsonLibrary

/-- The configuration in a text. -/
def read? (lib : JsonLibrary) (text : List Char) : Option Configuration :=
  (lib.parse? text).bind lib.ofValue?

/-- A configuration as a text. -/
def write? (lib : JsonLibrary) (c : Configuration) : Option (List Char) :=
  lib.print? (lib.toValue c)

/-- A value that is nested this deep may be refused. -/
def nesting : Nat := 128

/-- A library does what is documented of it. -/
structure IsDocumented (lib : JsonLibrary) : Prop where
  /-- A text of JSON stands for the value that it spells, also with blanks around it, -/
  parse {value : Json} {core text : List Char} : value.Spells core → Json.Pads core text →
    value.depth < nesting → lib.parse? text = some value
  /-- and a value is laid out over several lines. -/
  print {value : Json} : value.IsPlain → lib.print? value = some (value.layout 0)
  /-- A configuration is the object of its members, and so is a device, with its kind in front. -/
  toValue (c : Configuration) : lib.toValue c = c.toJson
  /-- An object that describes a configuration is one, whatever the order of its members and whatever
  further members it has. -/
  ofValue {value : Json} {c : Configuration} : value.IsPlain → value.depth < nesting →
    value.Configures c → lib.ofValue? value = some c

/-- The library that this development makes up. -/
def own : JsonLibrary where
  parse? := Json.ofText?
  print? value := some (value.layout 0)
  ofValue? := Configuration.ofJson?
  toValue := Configuration.toJson

end JsonLibrary

end Nmos6502
