import Nmos6502.Bus

/-!
# Configurations

A memory map as a list of described devices. Building it attaches a device for each description, in
order, so that earlier descriptions hide later ones where ranges overlap. The first description that
describes no device is refused; the devices before it are taken away again, and with them what they
hold of the interrupt request line.
-/

namespace Nmos6502

/-- The kinds of devices. -/
inductive DeviceKind
  | ram
  | rom
  | pia
  | screen
  deriving DecidableEq, Repr

namespace DeviceKind

/-- All kinds. -/
def all : List DeviceKind := [ram, rom, pia, screen]

/-- The name of a kind. -/
def name : DeviceKind → List Char
  | ram => ['r', 'a', 'm']
  | rom => ['r', 'o', 'm']
  | pia => ['p', 'i', 'a']
  | screen => ['s', 'c', 'r', 'e', 'e', 'n']

/-- The kind with a given name. -/
def ofName? (name : List Char) : Option DeviceKind :=
  all.find? fun kind => kind.name == name

theorem ofName?_name (kind : DeviceKind) : ofName? kind.name = some kind := by
  cases kind <;> decide

end DeviceKind

/-- A device as it is described. -/
inductive Description
  | ram (first last : UInt16)
  | rom (first last : UInt16) (image : List UInt8)
  | pia (first : UInt16)
  | screen (first : UInt16)
  deriving DecidableEq, Repr

/-- A memory map: the devices in the order in which they are attached. -/
structure Configuration where
  devices : List Description
  deriving DecidableEq, Repr

/-- A description that describes no device: its place, its kind, and the reason. -/
structure BuildError where
  index : Nat
  kind : DeviceKind
  error : DeviceError
  deriving DecidableEq, Repr

/-- What is said of a description that describes no device. -/
def BuildError.message (e : BuildError) : String :=
  "device " ++ String.ofList (Decimal.digits e.index) ++ " (" ++ String.ofList e.kind.name ++ "): " ++
    e.error.message

namespace Description

/-- The kind of a described device. -/
def kind : Description → DeviceKind
  | ram _ _ => .ram
  | rom _ _ _ => .rom
  | pia _ => .pia
  | screen _ => .screen

/-- The addresses of a described device. -/
def range : Description → Except RangeError AddressRange
  | ram first last | rom first last _ => AddressRange.ofBounds first last
  | pia first => AddressRange.ofSize first Pia.registerCount
  | screen first => AddressRange.ofSize first Screen.registerCount

/-- The device that is described, and the interrupt line with the device connected to it if it asks
for interrupts. -/
def make (d : Description) (irq : InterruptLine) : Except DeviceError (Device × InterruptLine) :=
  match d.range with
  | .error e => .error (.range e)
  | .ok range =>
    match d with
    | ram _ _ => .ok (.ram (Ram.new range), irq)
    | rom _ _ image => (Rom.ofImage range image).map fun m => (.rom m, irq)
    | pia _ => .ok (.pia (Pia.new range irq.connect.1), irq.connect.2)
    | screen _ => .ok (.screen (Screen.new range), irq)

end Description

/-- What comes of building a configuration. -/
structure Built where
  /-- The bus, or the refusal of the first description that describes no device. -/
  result : Except BuildError Bus
  /-- The interrupt lines afterwards. -/
  lines : InterruptLines
  events : List Event

namespace Configuration

/-- A bus with some described devices attached, of which the first has a given place in the
configuration, up to the first that describes no device; the refusal of that one, if there is any,
comes first, and last what is reported on the way. -/
def attachAll (bus : Bus) (index : Nat) :
    List Description → Option BuildError × Bus × List Event
  | [] => (none, bus, [])
  | d :: rest =>
    match d.make bus.irq with
    | .error e => (some ⟨index, d.kind, e⟩, bus, [])
    | .ok (device, irq) =>
      let bus := { bus with irq := irq }
      let (refusal, after, events) := attachAll (bus.attach device) (index + 1) rest
      (refusal, after, bus.attachEvents device ++ events)

/-- The bus of a configuration, with the devices connected to the interrupt request line. A bus that
cannot be finished is cleared, and so leaves nothing on the line. -/
def build (c : Configuration) (lines : InterruptLines) : Built :=
  match attachAll (.empty lines.irq) 0 c.devices with
  | (some e, bus, events) => ⟨.error e, { lines with irq := bus.released }, events⟩
  | (none, bus, events) =>
    ⟨.ok bus, { lines with irq := bus.irq }, events ++ [.busBuilt bus.deviceCount]⟩

end Configuration

end Nmos6502
