import Nmos6502.Device.Pia
import Nmos6502.Device.Ram
import Nmos6502.Device.Rom
import Nmos6502.Device.Screen
import Nmos6502.Event

/-!
# Devices

What can be put on a bus: RAM, ROM, a parallel interface or a screen. A device is addressed by the
offset from the first address of its range. Only a parallel interface can ask for an interrupt; it
holds the line by a source of its own, and `signal` puts its present request on the line. Whether an
operation does so is told by the device as it was before.
-/

namespace Nmos6502

/-- A device on a bus. -/
inductive Device
  | ram (d : Ram)
  | rom (d : Rom)
  | pia (d : Pia)
  | screen (d : Screen)

namespace Device

/-- The addresses that a device answers to. -/
def range : Device → AddressRange
  | ram d => d.range
  | rom d => d.range
  | pia d => d.range
  | screen d => d.range

/-- Whether a device answers to an address. -/
def answers (d : Device) (address : UInt16) : Bool :=
  d.range.contains address

/-- The byte that the bus reads at an offset, and the device after the read. -/
def read (d : Device) (offset : UInt16) : UInt8 × Device :=
  match d with
  | ram m => (m.read offset, ram m)
  | rom m => (m.read offset, rom m)
  | pia p => ((p.read offset).1, pia (p.read offset).2)
  | screen s => (s.read offset, screen s)

/-- The device after the bus has written at an offset. -/
def write (d : Device) (offset : UInt16) (value : UInt8) : Device :=
  match d with
  | ram m => ram (m.write offset value)
  | rom m => rom m
  | pia p => pia (p.write offset value)
  | screen s => screen (s.write offset value)

/-- What a write at an offset reports. -/
def writeEvents (d : Device) (offset : UInt16) (value : UInt8) : List Event :=
  match d with
  | rom m => [.romWriteIgnored (m.range.first + offset) value]
  | ram _ | pia _ | screen _ => []

/-- The device after a clock. -/
def clock : Device → Device
  | screen s => screen s.clock
  | d => d

/-- The interrupt line once the device has put its request on it. -/
def signal (d : Device) (line : InterruptLine) : InterruptLine :=
  match d with
  | pia p => p.signal line
  | ram _ | rom _ | screen _ => line

/-- Whether a read at an offset makes the device signal. -/
def signalsRead (d : Device) (offset : UInt16) : Bool :=
  match d with
  | pia p => p.signalsRead offset
  | ram _ | rom _ | screen _ => false

/-- Whether a write at an offset makes the device signal. -/
def signalsWrite (d : Device) (offset : UInt16) : Bool :=
  match d with
  | pia p => p.signalsWrite offset
  | ram _ | rom _ | screen _ => false

/-- Whether the device signals when its peripheral drives a port. -/
def signalsDrive (d : Device) (side : Pia.Side) : Bool :=
  match d with
  | pia p => p.signalsDrive side
  | ram _ | rom _ | screen _ => false

/-- Whether the device signals when its peripheral collects from a port. -/
def signalsTake (d : Device) (side : Pia.Side) : Bool :=
  match d with
  | pia p => p.signalsTake side
  | ram _ | rom _ | screen _ => false

/-- The interrupt line once the device is gone from it. -/
def disconnect (d : Device) (line : InterruptLine) : InterruptLine :=
  match d with
  | pia p => line.disconnect p.source
  | ram _ | rom _ | screen _ => line

/-- The device as RAM, if it is. -/
def ram? : Device → Option Ram
  | ram m => some m
  | _ => none

/-- The device as a parallel interface, if it is. -/
def pia? : Device → Option Pia
  | pia p => some p
  | _ => none

/-- The device as a screen, if it is. -/
def screen? : Device → Option Screen
  | screen s => some s
  | _ => none

/-- The contents of a device that is memory. -/
def contents? : Device → Option (List UInt8)
  | ram m => some m.toList
  | rom m => some m.toList
  | pia _ | screen _ => none

/-- The device with bytes stored in it from an offset on, if it is RAM. -/
def load (d : Device) (offset : Nat) (bytes : List UInt8) : Device :=
  match d with
  | ram m => ram (m.load offset bytes)
  | d => d

/-- The device after its peripheral has driven a port, if it has ports. -/
def drive (d : Device) (side : Pia.Side) (value : UInt8) : Device :=
  match d with
  | pia p => pia (p.drive side value)
  | d => d

/-- The device after its peripheral has collected from a port, if it has ports. -/
def afterTake (d : Device) (side : Pia.Side) : Device :=
  match d with
  | pia p => pia (p.take side).2
  | d => d

/-! ### The range stays -/

theorem range_setPort (p : Pia) (side : Pia.Side) (port : Port) :
    (p.setPort side port).range = p.range := by
  cases side <;> rfl

theorem range_pia_read (p : Pia) (offset : UInt16) : (p.read offset).2.range = p.range := by
  rw [Pia.read]
  split
  · next register _ => cases register <;> rfl
  · rfl

theorem range_pia_write (p : Pia) (offset : UInt16) (value : UInt8) :
    (p.write offset value).range = p.range := by
  rw [Pia.write]
  split
  · next register _ => cases register <;> rfl
  · rfl

theorem range_screen_write (s : Screen) (offset : UInt16) (value : UInt8) :
    (s.write offset value).range = s.range := by
  simp only [Screen.write]
  repeat' split
  all_goals rfl

@[simp] theorem range_read (d : Device) (offset : UInt16) : (d.read offset).2.range = d.range := by
  cases d with
  | pia p => exact range_pia_read p offset
  | _ => rfl

@[simp] theorem range_write (d : Device) (offset : UInt16) (value : UInt8) :
    (d.write offset value).range = d.range := by
  cases d with
  | ram m => exact Ram.range_store m offset.toNat value
  | rom m => rfl
  | pia p => exact range_pia_write p offset value
  | screen s => exact range_screen_write s offset value

@[simp] theorem range_clock (d : Device) : d.clock.range = d.range := by
  cases d with
  | screen s => simp only [clock, range, Screen.clock]; split <;> rfl
  | _ => rfl

@[simp] theorem range_load (d : Device) (offset : Nat) (bytes : List UInt8) :
    (d.load offset bytes).range = d.range := by
  cases d with
  | ram m => exact Ram.range_load m offset bytes
  | _ => rfl

@[simp] theorem range_drive (d : Device) (side : Pia.Side) (value : UInt8) :
    (d.drive side value).range = d.range := by
  cases d with
  | pia p => exact range_setPort p side _
  | _ => rfl

@[simp] theorem range_afterTake (d : Device) (side : Pia.Side) :
    (d.afterTake side).range = d.range := by
  cases d with
  | pia p => exact range_setPort p side _
  | _ => rfl

end Device

end Nmos6502
