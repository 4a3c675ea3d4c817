import Nmos6502.Device

/-!
# The bus

The devices of a machine in the order in which they were attached, and the interrupt line that they
drive. An access goes to the first device whose range holds the address; where there is none, reading
gives zero and writing does nothing. An operation that makes a device signal ends by putting the
device's request on the line, and no other operation touches the line (`Bus.update`). No operation
moves a device: the device that answers to an address stays the one that does (`owner?_update`), and
it is only reached at offsets that its range has (`offset_lt_size_of_owner?`).
-/

namespace Nmos6502

/-- Devices with their interrupt line. -/
structure Bus where
  devices : Array Device
  /-- The line that the devices drive. -/
  irq : InterruptLine

namespace Bus

/-- A bus without devices. -/
def empty (irq : InterruptLine) : Bus := ⟨#[], irq⟩

/-- The number of devices. -/
def deviceCount (bus : Bus) : Nat :=
  bus.devices.size

/-- The device at a place in the order of devices. -/
def device? (bus : Bus) (i : Nat) : Option Device :=
  bus.devices[i]?

/-- One source more on the interrupt line, and the bus with it. -/
def connect (bus : Bus) : SourceId × Bus :=
  (bus.irq.connect.1, { bus with irq := bus.irq.connect.2 })

/-- The bus with one device more, which is addressed after all others. -/
def attach (bus : Bus) (d : Device) : Bus :=
  { bus with devices := bus.devices.push d }

/-- What attaching a device reports. -/
def attachEvents (bus : Bus) (d : Device) : List Event :=
  [.deviceRegistered d.range bus.deviceCount]

/-- The line of a bus whose devices are all taken away. -/
def released (bus : Bus) : InterruptLine :=
  bus.devices.foldl (fun line d => d.disconnect line) bus.irq

/-- The bus with all its devices taken away, and their requests with them. -/
def clear (bus : Bus) : Bus :=
  empty bus.released

/-- The place of the device that an access to an address goes to. -/
def owner? (bus : Bus) (address : UInt16) : Option Nat :=
  bus.devices.findIdx? fun d => d.answers address

/-- The bus once something has happened to the device at a place, which signals then if it is to. -/
def update : Bus → Nat → (Device → Bool) → (Device → Device) → Bus
  | ⟨devices, irq⟩, i, signals, f =>
    let signalling := devices[i]?.any signals
    let devices := devices.modify i f
    match devices[i]? with
    | some d => ⟨devices, if signalling then d.signal irq else irq⟩
    | none => ⟨devices, irq⟩

/-- The byte that a read finds where no device answers. -/
def openValue : UInt8 := 0

/-- The byte that a read of an address finds. -/
def peek (bus : Bus) (address : UInt16) : UInt8 :=
  match (bus.owner? address).bind bus.device? with
  | some d => (d.read (d.range.offset address)).1
  | none => openValue

/-- The bus after a read of an address. -/
def afterRead (bus : Bus) (address : UInt16) : Bus :=
  match bus.owner? address with
  | some i =>
    bus.update i (fun d => d.signalsRead (d.range.offset address))
      fun d => (d.read (d.range.offset address)).2
  | none => bus

/-- A read of an address: the byte that it finds, and the bus after it. -/
def read (bus : Bus) (address : UInt16) : UInt8 × Bus :=
  (bus.peek address, bus.afterRead address)

/-- The bus after a write to an address. -/
def write (bus : Bus) (address : UInt16) (value : UInt8) : Bus :=
  match bus.owner? address with
  | some i =>
    bus.update i (fun d => d.signalsWrite (d.range.offset address))
      fun d => d.write (d.range.offset address) value
  | none => bus

/-- What a write to an address reports. -/
def writeEvents (bus : Bus) (address : UInt16) (value : UInt8) : List Event :=
  match (bus.owner? address).bind bus.device? with
  | some d => d.writeEvents (d.range.offset address) value
  | none => []

/-- The bus after a clock of all devices. -/
def clock : Bus → Bus
  | ⟨devices, irq⟩ => ⟨devices.map Device.clock, irq⟩

/-! ### What happens to a device from outside the bus -/

/-- The bus once bytes have been stored in the RAM at a place; none if there is no RAM. -/
def load? (bus : Bus) (i offset : Nat) (bytes : List UInt8) : Option Bus :=
  match (bus.device? i).bind Device.ram? with
  | some _ => some (bus.update i (fun _ => false) fun d => d.load offset bytes)
  | none => none

/-- The bus once a peripheral has driven a port of the interface at a place; none if there is no
interface. -/
def drive? (bus : Bus) (i : Nat) (side : Pia.Side) (value : UInt8) : Option Bus :=
  match (bus.device? i).bind Device.pia? with
  | some _ =>
    some (bus.update i (fun d => d.signalsDrive side) fun d => d.drive side value)
  | none => none

/-- What a peripheral collects from a port of the interface at a place, and the bus after that; none
if there is no interface. -/
def take? (bus : Bus) (i : Nat) (side : Pia.Side) : Option (Option UInt8 × Bus) :=
  match (bus.device? i).bind Device.pia? with
  | some p =>
    some ((p.take side).1, bus.update i (fun d => d.signalsTake side) fun d => d.afterTake side)
  | none => none

/-- The ranges of the devices in text. -/
def text (bus : Bus) : String :=
  "[" ++ String.intercalate ", " (bus.devices.toList.map fun d => d.range.text) ++ "]"

/-! ### Which device answers -/

/-- An update reaches the device at its place and no other. -/
theorem device?_update (bus : Bus) (i j : Nat) (signals : Device → Bool) (f : Device → Device) :
    (bus.update i signals f).device? j =
      if i = j then (bus.device? j).map f else bus.device? j := by
  rcases bus with ⟨devices, irq⟩
  simp only [update, device?]
  split <;> exact Array.getElem?_modify

@[simp] theorem deviceCount_update (bus : Bus) (i : Nat) (signals : Device → Bool)
    (f : Device → Device) : (bus.update i signals f).deviceCount = bus.deviceCount := by
  rcases bus with ⟨devices, irq⟩
  simp only [update, deviceCount]
  split <;> exact Array.size_modify

/-- The device that answers to an address is one that holds it, and no earlier device does. -/
theorem owner?_eq_some_iff {bus : Bus} {address : UInt16} {i : Nat} :
    bus.owner? address = some i ↔
      (∃ d, bus.device? i = some d ∧ d.answers address = true) ∧
        ∀ j < i, ∀ d, bus.device? j = some d → d.answers address = false := by
  rw [owner?, Array.findIdx?_eq_some_iff_getElem]
  constructor
  · rintro ⟨h, hi, hj⟩
    refine ⟨⟨bus.devices[i], Array.getElem?_eq_getElem h, hi⟩, fun j hlt d hd => ?_⟩
    obtain ⟨_, rfl⟩ := Array.getElem?_eq_some_iff.mp hd
    simpa using hj j hlt
  · rintro ⟨⟨d, hd, hi⟩, hj⟩
    obtain ⟨h, rfl⟩ := Array.getElem?_eq_some_iff.mp hd
    refine ⟨h, hi, fun j hlt => ?_⟩
    simpa using hj j hlt _ (Array.getElem?_eq_getElem (by omega))

theorem owner?_eq_none_iff {bus : Bus} {address : UInt16} :
    bus.owner? address = none ↔
      ∀ i d, bus.device? i = some d → d.answers address = false := by
  simp only [owner?, device?, Array.findIdx?_eq_none_iff, Array.mem_iff_getElem?,
    forall_exists_index]
  exact forall_comm

/-- A device is only reached at offsets that its range has. -/
theorem offset_lt_size_of_owner? {bus : Bus} {address : UInt16} {i : Nat} {d : Device}
    (h : bus.owner? address = some i) (hd : bus.device? i = some d) :
    (d.range.offset address).toNat < d.range.size := by
  obtain ⟨⟨d', hd', ha⟩, -⟩ := owner?_eq_some_iff.mp h
  obtain rfl : d = d' := Option.some.inj (hd.symm.trans hd')
  exact AddressRange.toNat_offset_lt_size ha

/-- Where the ranges stay, the same device answers. -/
theorem owner?_congr {bus bus' : Bus} (address : UInt16)
    (h : ∀ i, (bus'.device? i).map Device.range = (bus.device? i).map Device.range) :
    bus'.owner? address = bus.owner? address := by
  have ha : ∀ b : Bus, b.owner? address =
      (b.devices.map Device.range).findIdx? fun r => r.contains address := fun b => by
    rw [owner?, Array.findIdx?_map]
    rfl
  have hr : bus'.devices.map Device.range = bus.devices.map Device.range := by
    apply Array.ext_getElem?
    simpa [device?] using h
  rw [ha, ha, hr]

@[simp] theorem owner?_update {bus : Bus} {i : Nat} {signals : Device → Bool}
    {f : Device → Device} (address : UInt16) (h : ∀ d, (f d).range = d.range) :
    (bus.update i signals f).owner? address = bus.owner? address := by
  refine owner?_congr address fun j => ?_
  rw [device?_update]
  split
  · cases bus.device? j <;> simp [h]
  · rfl

end Bus

end Nmos6502
