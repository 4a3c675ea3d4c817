import Nmos6502.AddressRange
import Nmos6502.Opcode

/-!
# Events

What the parts of a machine report while they work, apart from their results. Each event has a level
of importance, a fixed message, and named details in text.
-/

namespace Nmos6502

/-- The two hardware interrupts. -/
inductive Interrupt
  | nmi
  | irq
  deriving DecidableEq, Repr

/-- The name of an interrupt. -/
def Interrupt.name : Interrupt → String
  | nmi => "NMI"
  | irq => "IRQ"

/-- Something worth reporting. -/
inductive Event
  /-- A device is about to be put on the bus, at the given place in the order of devices. -/
  | deviceRegistered (range : AddressRange) (index : Nat)
  | busBuilt (devices : Nat)
  | processorReset (pc : UInt16)
  /-- An interrupt is about to be entered; `pc` is where the program is interrupted. -/
  | interruptServiced (interrupt : Interrupt) (pc : UInt16)
  /-- A `BRK` at `pc` is about to be carried out. -/
  | softwareBreak (pc : UInt16)
  /-- The instruction at `pc` has been decoded. -/
  | instructionDecoded (pc : UInt16) (op : Opcode)
  | illegalOpcode (pc : UInt16) (code : UInt8)
  | romWriteIgnored (address : UInt16) (value : UInt8)
  | assemblyComplete (origin : UInt16) (size : Nat)
  deriving DecidableEq

namespace Event

/-- How much attention an event deserves. -/
inductive Level
  | warning
  | debug
  | trace
  deriving DecidableEq, Repr

/-- The level of an event. -/
def level : Event → Level
  | illegalOpcode .. | romWriteIgnored .. => .warning
  | instructionDecoded .. => .trace
  | deviceRegistered .. | busBuilt .. | processorReset .. | interruptServiced .. | softwareBreak ..
  | assemblyComplete .. => .debug

/-- What is said of an event. -/
def message : Event → String
  | deviceRegistered .. => "device registered"
  | busBuilt .. => "machine bus built"
  | processorReset .. => "cpu reset"
  | interruptServiced interrupt _ => "servicing " ++ interrupt.name
  | softwareBreak .. => "BRK"
  | instructionDecoded .. => "execute"
  | illegalOpcode .. => "illegal opcode"
  | romWriteIgnored .. => "write to ROM ignored"
  | assemblyComplete .. => "assembly complete"

/-- A number in decimal. -/
def natText (n : Nat) : String := String.ofList (Decimal.digits n)

/-- A byte in hexadecimal. -/
def byteText (b : UInt8) : String := String.ofList (Hexadecimal.byteText b)

/-- An address in hexadecimal. -/
def addressText (a : UInt16) : String := String.ofList (Hexadecimal.addressText a)

/-- The details of an event, each with its name. -/
def details : Event → List (String × String)
  | deviceRegistered range index => [("range", range.text), ("index", natText index)]
  | busBuilt devices => [("devices", natText devices)]
  | processorReset pc | interruptServiced _ pc | softwareBreak pc => [("pc", addressText pc)]
  | instructionDecoded pc op =>
    [("pc", addressText pc), ("opcode", byteText op.code),
      ("mnemonic", String.ofList op.instruction.mnemonic)]
  | illegalOpcode pc code => [("pc", addressText pc), ("opcode", byteText code)]
  | romWriteIgnored address value =>
    [("address", addressText address), ("value", byteText value)]
  | assemblyComplete origin size => [("origin", addressText origin), ("bytes", natText size)]

end Event

end Nmos6502
