import Nmos6502.Configuration
import Nmos6502.Json.Layout
import Nmos6502.Json.Parse

/-!
# Configurations in text

A configuration is written as a JSON object with one member, `devices`: an array of objects, each with
the kind of a device and its bounds, and the image of a ROM. In reading, an object may hold further
members, which are passed over, and both a configuration and a device may be written as arrays of
their members' values in order. Natural numbers that fit their place are the only numbers accepted.
-/

namespace Nmos6502

/-- The member that lists the devices. -/
def devicesKey : List Char := ['d', 'e', 'v', 'i', 'c', 'e', 's']

/-- The member that says which kind a device is of. -/
def kindKey : List Char := ['k', 'i', 'n', 'd']

/-- The member that says where a device begins. -/
def startKey : List Char := ['s', 't', 'a', 'r', 't']

/-- The member that says where a device ends. -/
def endKey : List Char := ['e', 'n', 'd']

/-- The member that says what a ROM holds. -/
def imageKey : List Char := ['i', 'm', 'a', 'g', 'e']

/-! ### Reading -/

namespace Json

/-- A value that is an address. -/
def address? (value : Json) : Option UInt16 :=
  value.natural?.bind fun n => if n < 0x10000 then some (UInt16.ofNat n) else none

/-- A value that is a byte. -/
def byte? (value : Json) : Option UInt8 :=
  value.natural?.bind fun n => if n < 0x100 then some (UInt8.ofNat n) else none

/-- A value that is a sequence of bytes. -/
def bytes? (value : Json) : Option (List UInt8) :=
  value.items?.bind fun items => items.mapM byte?

/-- A value that names a kind of device. -/
def kind? : Json → Option DeviceKind
  | string (some name) => DeviceKind.ofName? name
  | _ => none

end Json

namespace Description

/-- How many levels of arrays and objects a device may have. -/
def levels : Nat := 125

/-- The device of a kind whose bounds and image are given, as far as the kind needs them. -/
def ofFields? (start stop image : Option Json) : DeviceKind → Option Description
  | .ram => do
    return .ram (← (← start).address?) (← (← stop).address?)
  | .rom => do
    let bytes ← match image with
      | none => some []
      | some image => image.bytes?
    return .rom (← (← start).address?) (← (← stop).address?) bytes
  | .pia => do
    return .pia (← (← start).address?)
  | .screen => do
    return .screen (← (← start).address?)

/-- The members that a kind of device has, apart from the kind itself. -/
def keys : DeviceKind → List (List Char)
  | .ram => [startKey, endKey]
  | .rom => [startKey, endKey, imageKey]
  | .pia | .screen => [startKey]

/-- The device of a kind, each of whose members a function finds or refuses. -/
def ofMembers? (find : List Char → Option (Option Json)) (kind : DeviceKind) :
    Option Description := do
  let field (key : List Char) : Option (Option Json) :=
    if key ∈ keys kind then find key else some none
  ofFields? (← field startKey) (← field endKey) (← field imageKey) kind

/-- The member of a device that is written as an array. -/
def item? (kind : DeviceKind) (items : List Json) (key : List Char) : Option (Option Json) :=
  some items[(keys kind).idxOf key]?

/-- The device that a value describes. -/
def ofJson? (value : Json) : Option Description :=
  if value.isUsable levels then
    match value with
    | .object members => do
      let kind ← (← (← Json.member? members kindKey)).kind?
      ofMembers? (Json.member? members) kind
    | .array (first :: items) => do
      let kind ← first.kind?
      if items.length ≤ (keys kind).length then ofMembers? (item? kind items) kind else none
    | _ => none
  else none

end Description

namespace Configuration

/-- The configuration that a value describes. -/
def ofJson? : Json → Option Configuration
  | .object members => do
    if members.all fun m => m.1.isSome then
      let devices ← (← (← Json.member? members devicesKey)).items?
      return ⟨← devices.mapM Description.ofJson?⟩
    else none
  | .array [devices] => do
    return ⟨← (← devices.items?).mapM Description.ofJson?⟩
  | _ => none

/-- The configuration that a text describes. -/
def ofText? (text : List Char) : Option Configuration :=
  (Json.ofText? text).bind ofJson?

end Configuration

/-! ### Writing -/

namespace Description

/-- The members of a device apart from its kind. -/
def fields : Description → List (JsonText × Json)
  | .ram first last =>
    [(some startKey, .natural first.toNat), (some endKey, .natural last.toNat)]
  | .rom first last image =>
    [(some startKey, .natural first.toNat), (some endKey, .natural last.toNat),
      (some imageKey, .array (image.map fun b => .natural b.toNat))]
  | .pia first | .screen first => [(some startKey, .natural first.toNat)]

/-- A described device as a value. -/
def toJson (d : Description) : Json :=
  .object ((some kindKey, .string (some d.kind.name)) :: d.fields)

end Description

namespace Configuration

/-- A configuration as a value. -/
def toJson (c : Configuration) : Json :=
  .object [(some devicesKey, .array (c.devices.map Description.toJson))]

/-- A configuration as a text. -/
def toText (c : Configuration) : List Char :=
  c.toJson.layout 0

end Configuration

end Nmos6502
