import Nmos6502.AddressRange
import Nmos6502.InterruptLine

/-!
# Parallel interface

A peripheral interface adapter with two ports. A port is an output while the peripheral drives it and
an input while the bus writes it; in both directions a ready flag says that there is data which the
other side has not yet collected. Each port may ask for an interrupt while its flag is set. An operation
that reaches a port or one of the registers above it puts the request of the interface on the line
(`signal`); one that a port refuses does not (`signalsDrive`, `signalsTake`, `signalsRead`,
`signalsWrite`).

The interface occupies four addresses: the two ports, a control register with the directions and the
interrupt enables, and a status register with the ready flags. The ports do not influence one another;
only the control and status registers address both.
-/

namespace Nmos6502

/-- One port of a parallel interface. -/
structure Port where
  data : UInt8
  /-- There is data that has not been collected. -/
  ready : Bool
  /-- The port is driven by the peripheral, and the bus cannot write it. -/
  isOutput : Bool
  /-- The port asks for an interrupt while it is ready. -/
  interrupts : Bool
  deriving DecidableEq, Repr

namespace Port

/-- An input port that holds nothing. -/
def new : Port := ⟨0, false, false, false⟩

/-- The peripheral drives a value, which only an output takes. -/
def drive (p : Port) (value : UInt8) : Port :=
  if p.isOutput then { p with data := value, ready := true } else p

/-- There is data in an input, which whoever reads the port or takes from it collects. -/
def isWaiting (p : Port) : Bool :=
  !p.isOutput && p.ready

/-- The peripheral collects what the bus has written to an input, if there is anything. -/
def take (p : Port) : Option UInt8 × Port :=
  if p.isWaiting then (some p.data, { p with ready := false }) else (none, p)

/-- The bus reads the port, which counts as collecting from an input. -/
def read (p : Port) : UInt8 × Port :=
  (p.data, if p.isOutput then p else { p with ready := false })

/-- The bus writes a value, which only an input takes. -/
def write (p : Port) (value : UInt8) : Port :=
  if p.isOutput then p else { p with data := value, ready := true }

/-- The bus sets the ready flag, which only an input allows. -/
def setReady (p : Port) (ready : Bool) : Port :=
  if p.isOutput then p else { p with ready := ready }

/-- The bus chooses the direction of the port and whether it asks for interrupts. -/
def configure (p : Port) (isOutput interrupts : Bool) : Port :=
  { p with isOutput := isOutput, interrupts := interrupts }

/-- Whether the port asks for an interrupt. -/
def requestsInterrupt (p : Port) : Bool :=
  p.ready && p.interrupts

/-- To read what waits is to collect it. -/
theorem read_of_waiting {p : Port} (h : p.isWaiting = true) :
    p.read = (p.data, { p with ready := false }) := by
  rcases p with ⟨data, ready, isOutput, interrupts⟩
  cases isOutput with
  | false => rfl
  | true => cases h

/-- To read where nothing waits changes nothing. -/
theorem read_of_not_waiting {p : Port} (h : p.isWaiting = false) : p.read = (p.data, p) := by
  rcases p with ⟨data, ready, isOutput, interrupts⟩
  cases isOutput with
  | false =>
    obtain rfl : ready = false := h
    rfl
  | true => rfl

end Port

/-- A parallel interface. -/
structure Pia where
  range : AddressRange
  /-- The source by which the interface holds the interrupt line. -/
  source : SourceId
  a : Port
  b : Port
  deriving DecidableEq

namespace Pia

/-- The number of addresses that an interface occupies. -/
def registerCount : Nat := 4

/-- What an interface has at each of its addresses. -/
inductive Register
  | portA
  | portB
  | control
  | status
  deriving DecidableEq, Repr

/-- The register at an offset. -/
def Register.at? (offset : UInt16) : Option Register :=
  if offset = 0 then some portA
  else if offset = 1 then some portB
  else if offset = 2 then some control
  else if offset = 3 then some status
  else none

/-- The two ports. -/
inductive Side
  | a
  | b
  deriving DecidableEq, Repr

/-- Whether a bit of a byte is set. -/
def bit (value mask : UInt8) : Bool :=
  value &&& mask != 0

/-- A bit of a byte. -/
def flag (set : Bool) (mask : UInt8) : UInt8 :=
  if set then mask else 0

/-- The control bit that makes port A an output. -/
def outA : UInt8 := 0x01

/-- The control bit that makes port B an output. -/
def outB : UInt8 := 0x02

/-- The control bit that lets port A ask for interrupts. -/
def irqA : UInt8 := 0x04

/-- The control bit that lets port B ask for interrupts. -/
def irqB : UInt8 := 0x08

/-- The status bit that says that port A is ready. -/
def readyA : UInt8 := 0x01

/-- The status bit that says that port B is ready. -/
def readyB : UInt8 := 0x02

/-- An interface with two input ports that hold nothing. -/
def new (range : AddressRange) (source : SourceId) : Pia :=
  ⟨range, source, .new, .new⟩

/-- One of the ports. -/
def port (p : Pia) : Side → Port
  | .a => p.a
  | .b => p.b

/-- The interface with one of its ports replaced. -/
def setPort (p : Pia) (side : Side) (port : Port) : Pia :=
  match side with
  | .a => { p with a := port }
  | .b => { p with b := port }

/-- The control register. -/
def control (p : Pia) : UInt8 :=
  flag p.a.isOutput outA ||| flag p.b.isOutput outB ||| flag p.a.interrupts irqA |||
    flag p.b.interrupts irqB

/-- The status register. -/
def status (p : Pia) : UInt8 :=
  flag p.a.ready readyA ||| flag p.b.ready readyB

/-- The peripheral drives a port. -/
def drive (p : Pia) (side : Side) (value : UInt8) : Pia :=
  p.setPort side ((p.port side).drive value)

/-- The peripheral collects from a port. -/
def take (p : Pia) (side : Side) : Option UInt8 × Pia :=
  let (value, port) := (p.port side).take
  (value, p.setPort side port)

/-- The bus reads a register. -/
def readRegister (p : Pia) : Register → UInt8 × Pia
  | .portA => (p.a.read.1, { p with a := p.a.read.2 })
  | .portB => (p.b.read.1, { p with b := p.b.read.2 })
  | .control => (p.control, p)
  | .status => (p.status, p)

/-- The bus writes a register. -/
def writeRegister (p : Pia) (value : UInt8) : Register → Pia
  | .portA => { p with a := p.a.write value }
  | .portB => { p with b := p.b.write value }
  | .control =>
    { p with
      a := p.a.configure (bit value outA) (bit value irqA)
      b := p.b.configure (bit value outB) (bit value irqB) }
  | .status =>
    { p with
      a := p.a.setReady (bit value readyA)
      b := p.b.setReady (bit value readyB) }

/-- The bus reads at an offset; where there is no register it finds zero. -/
def read (p : Pia) (offset : UInt16) : UInt8 × Pia :=
  match Register.at? offset with
  | some register => p.readRegister register
  | none => (0, p)

/-- The bus writes at an offset. -/
def write (p : Pia) (offset : UInt16) (value : UInt8) : Pia :=
  match Register.at? offset with
  | some register => p.writeRegister value register
  | none => p

/-- Whether a port asks for an interrupt. -/
def requestsInterrupt (p : Pia) : Bool :=
  p.a.requestsInterrupt || p.b.requestsInterrupt

/-- The interrupt line once the interface has put its request on it. -/
def signal (p : Pia) (line : InterruptLine) : InterruptLine :=
  line.set p.source p.requestsInterrupt

/-! ### Which operations signal -/

/-- Whether the interface signals when the peripheral drives a port: only an output is driven. -/
def signalsDrive (p : Pia) (side : Side) : Bool :=
  (p.port side).isOutput

/-- Whether the interface signals when the peripheral collects from a port: only where there is
something to collect. -/
def signalsTake (p : Pia) (side : Side) : Bool :=
  (p.port side).isWaiting

/-- Whether the interface signals when the bus reads at an offset: only where that collects. -/
def signalsRead (p : Pia) (offset : UInt16) : Bool :=
  match Register.at? offset with
  | some .portA => p.a.isWaiting
  | some .portB => p.b.isWaiting
  | some .control | some .status | none => false

/-- Whether the interface signals when the bus writes at an offset: at the control and the status
register always, at a port only if it is an input. -/
def signalsWrite (p : Pia) (offset : UInt16) : Bool :=
  match Register.at? offset with
  | some .portA => !p.a.isOutput
  | some .portB => !p.b.isOutput
  | some .control | some .status => true
  | none => false

/-! ### What does not signal -/

variable {p : Pia}

theorem setPort_port (p : Pia) (side : Side) : p.setPort side (p.port side) = p := by
  cases side <;> rfl

/-- **What does not signal changes nothing**: to drive an input, -/
theorem drive_of_not_signals {side : Side} (h : p.signalsDrive side = false) (value : UInt8) :
    p.drive side value = p := by
  have hport : (p.port side).drive value = p.port side := if_neg (Bool.eq_false_iff.mp h)
  rw [drive, hport, setPort_port]

/-- to collect where nothing waits, -/
theorem take_of_not_signals {side : Side} (h : p.signalsTake side = false) :
    p.take side = (none, p) := by
  have hport : (p.port side).take = (none, p.port side) := if_neg (Bool.eq_false_iff.mp h)
  rw [take, hport]
  dsimp only
  rw [setPort_port]

/-- to read where that does not collect, -/
theorem read_of_not_signals {offset : UInt16} (h : p.signalsRead offset = false) :
    (p.read offset).2 = p := by
  unfold signalsRead at h
  unfold read
  cases hr : Register.at? offset with
  | none => rfl
  | some register =>
    rw [hr] at h
    cases register with
    | portA => exact congrArg (fun r => { p with a := r.2 }) (Port.read_of_not_waiting h)
    | portB => exact congrArg (fun r => { p with b := r.2 }) (Port.read_of_not_waiting h)
    | control => rfl
    | status => rfl

/-- and to write to an output. -/
theorem write_of_not_signals {offset : UInt16} (h : p.signalsWrite offset = false)
    (value : UInt8) : p.write offset value = p := by
  have hport : ∀ port : Port, (!port.isOutput) = false → port.write value = port := by
    rintro ⟨data, ready, isOutput, interrupts⟩ hout
    cases isOutput with
    | false => cases hout
    | true => rfl
  unfold signalsWrite at h
  unfold write
  cases hr : Register.at? offset with
  | none => rfl
  | some register =>
    rw [hr] at h
    cases register with
    | portA => exact congrArg (fun port => { p with a := port }) (hport p.a h)
    | portB => exact congrArg (fun port => { p with b := port }) (hport p.b h)
    | control => cases h
    | status => cases h

end Pia

end Nmos6502
