import Nmos6502.AddressRange
import Nmos6502.AddressingMode
import Nmos6502.Assembly.Label
import Nmos6502.Assembly.Line
import Nmos6502.Assembly.Problem
import Nmos6502.Assembly.Program
import Nmos6502.Assembly.Statement
import Nmos6502.Assembly.Symbols
import Nmos6502.Bus
import Nmos6502.Configuration
import Nmos6502.Configuration.Text
import Nmos6502.Device
import Nmos6502.Device.Pia
import Nmos6502.Device.Ram
import Nmos6502.Device.Rom
import Nmos6502.Device.Screen
import Nmos6502.Disassembly.Decoded
import Nmos6502.Disassembly.Item
import Nmos6502.Event
import Nmos6502.Instruction
import Nmos6502.InterruptLine
import Nmos6502.Json.Number
import Nmos6502.Json.Parse
import Nmos6502.Json.Token
import Nmos6502.Json.Value
import Nmos6502.Machine
import Nmos6502.Opcode
import Nmos6502.Processor.Activity
import Nmos6502.Processor.Arithmetic
import Nmos6502.Processor.Effect
import Nmos6502.Processor.Execution
import Nmos6502.Processor.Flags
import Nmos6502.Processor.Location
import Nmos6502.Processor.Registers
import Nmos6502.Text.Blank
import Nmos6502.Text.Decimal
import Nmos6502.Text.Hexadecimal
import Nmos6502.Text.Pieces
import Nmos6502.Word
import Nmos6502.Proofs.Assembly.OperandForms
import Nmos6502.Proofs.Assembly.BranchReach
import Nmos6502.Proofs.Assembly.LineParts
import Nmos6502.Proofs.Disassembly.RoundTrip
import Nmos6502.Proofs.Assembly.Inlining
import Nmos6502.Proofs.InterruptLine.Sources
import Nmos6502.Proofs.Bus.History
import Nmos6502.Proofs.Bus.ShadowedMemory
import Nmos6502.Proofs.Bus.Interfaces
import Nmos6502.Proofs.Machine.Runs
import Nmos6502.Proofs.Machine.Reachable
import Nmos6502.Proofs.Machine.NonMaskable
import Nmos6502.Proofs.Machine.Boundary
import Nmos6502.Proofs.Machine.SingleEntry
import Nmos6502.Proofs.Machine.Circuit
import Nmos6502.Proofs.Machine.RequestLine
import Nmos6502.Proofs.Assembly.Layout
import Nmos6502.Proofs.Bus.Memory
import Nmos6502.Proofs.Bus.Reads
import Nmos6502.Proofs.Processor.Decoding
import Nmos6502.Proofs.Machine.IllegalOpcode
import Nmos6502.Proofs.Machine.Listing
import Nmos6502.Proofs.Machine.InterruptReturn
import Nmos6502.Proofs.Assembly.Placement
import Nmos6502.Proofs.Disassembly.Recovery
import Nmos6502.Proofs.Assembly.Composition
import Nmos6502.Proofs.Assembly.Relocation
import Nmos6502.Proofs.Bus.LineIndependence
import Nmos6502.Proofs.Machine.MaskedRequest
import Nmos6502.Proofs.Processor.Approach
import Nmos6502.Proofs.Processor.Results
import Nmos6502.Proofs.Processor.Traffic
import Nmos6502.Proofs.Processor.Frame
import Nmos6502.Proofs.Processor.Numerals
import Nmos6502.Proofs.Processor.LongSums
import Nmos6502.Proofs.Processor.StackDiscipline
import Nmos6502.Proofs.Machine.SingleStep
import Nmos6502.Proofs.Machine.SummedNumbers
import Nmos6502.Proofs.Configuration.RoundTrip
import Nmos6502.Proofs.Device.Handshake
import Nmos6502.Proofs.Device.Delivery
import Nmos6502.Proofs.Machine.Branches
import Nmos6502.Proofs.Device.Display
import Nmos6502.Proofs.Configuration.Building
import Nmos6502.Proofs.Assembly.Refusals
import Nmos6502.Proofs.Assembly.Sizes
import Nmos6502.Proofs.Assembly.Diagnosis
import Nmos6502.Proofs.Assembly.Unambiguity
import Nmos6502.Proofs.Assembly.WrittenLines
import Nmos6502.Proofs.Disassembly.Tiling
import Nmos6502.Proofs.Processor.LongShifts
import Nmos6502.Proofs.Machine.ShiftedNumbers
import Nmos6502.Proofs.Assembly.OperandGrammar
import Nmos6502.Proofs.Assembly.Patching
import Nmos6502.Proofs.Assembly.EncodedShapes
