import Nmos6502.Assembly.Label
import Nmos6502.Instruction
import Nmos6502.Text.Decimal
import Nmos6502.Text.Hexadecimal

/-!
# What can be wrong with a program

Each way in which a line of assembly text can be refused, the kind it belongs to, and what is said of
it. An `AssemblyError` adds the line.
-/

namespace Nmos6502

/-- A reason to refuse a line. -/
inductive Problem
  | undefinedLabel (name : List Char)
  /-- The name was defined on an earlier line. -/
  | duplicateLabel (name : List Char) (line : Nat)
  | invalidLabel (fault : Label.Fault)
  /-- The label would stand for an address past the end of memory. -/
  | labelPastEnd (name : List Char)
  /-- The statement does not fit below the end of memory. -/
  | programPastEnd
  /-- The target is not within reach of a signed byte from the instruction after the branch. -/
  | branchOutOfRange (target next : UInt16)
  | unknownMnemonic (text : List Char)
  | missingOperand (i : Instruction)
  | badOperand (i : Instruction) (operand : List Char)
  | notBranch (i : Instruction)
  | badTarget (i : Instruction) (operand : List Char)
  | unknownDirective (text : List Char)
  | noValues
  | badValue (text : List Char)
  deriving DecidableEq, Repr

namespace Problem

/-- The kinds of problems. -/
inductive Kind
  | undefinedLabel
  | duplicateLabel
  | invalidLabel
  | invalidMnemonic
  | invalidOperand
  | range
  | invalidDirective
  deriving DecidableEq, Repr

/-- The kind that a problem belongs to. -/
def kind : Problem → Kind
  | undefinedLabel _ => .undefinedLabel
  | duplicateLabel _ _ => .duplicateLabel
  | invalidLabel _ => .invalidLabel
  | labelPastEnd _ | programPastEnd | branchOutOfRange _ _ => .range
  | unknownMnemonic _ => .invalidMnemonic
  | missingOperand _ | badOperand _ _ | notBranch _ | badTarget _ _ => .invalidOperand
  | unknownDirective _ | noValues | badValue _ => .invalidDirective

/-- A text between backquotes. -/
def quoted (text : List Char) : String :=
  "`" ++ String.ofList text ++ "`"

/-- A distance in the address space, counted the shorter way round. -/
def signedDistance (distance : UInt16) : Int :=
  if distance < 0x8000 then distance.toNat else (distance.toNat : Int) - 0x10000

/-- A whole number in decimal, with a sign only if it is negative. -/
def integerText (n : Int) : String :=
  if n < 0 then "-" ++ String.ofList (Decimal.digits n.natAbs)
  else String.ofList (Decimal.digits n.natAbs)

/-- What is said of a problem. -/
def message : Problem → String
  | undefinedLabel name => "undefined label " ++ quoted name
  | duplicateLabel name line =>
    "label " ++ quoted name ++ " already defined on line " ++ String.ofList (Decimal.digits line)
  | invalidLabel fault => fault.message
  | labelPastEnd name => "label " ++ quoted name ++ " past $FFFF"
  | programPastEnd => "program extends past $FFFF"
  | branchOutOfRange target next =>
    "branch target " ++ String.ofList (Hexadecimal.addressText target) ++ " out of range (" ++
      integerText (signedDistance (target - next)) ++ " bytes from " ++
      String.ofList (Hexadecimal.addressText next) ++ ")"
  | unknownMnemonic text => Instruction.unknownMnemonic text
  | missingOperand i => String.ofList i.mnemonic ++ " requires an operand"
  | badOperand i operand =>
    "no addressing mode of " ++ String.ofList i.mnemonic ++ " accepts " ++ quoted operand
  | notBranch i => String.ofList i.mnemonic ++ " is not a branch"
  | badTarget i operand =>
    String.ofList i.mnemonic ++ " expects a label, $XX offset or $XXXX target, got " ++
      quoted operand
  | unknownDirective text => "unknown directive " ++ quoted text
  | noValues => ".byte requires at least one value"
  | badValue text => ".byte expects $XX values, got " ++ quoted text

end Problem

/-- A refused line: its number, counted from one, its text without blanks at the ends, and the
reason. -/
structure AssemblyError where
  problem : Problem
  line : Nat
  text : List Char
  deriving DecidableEq, Repr

/-- The refusal as one sentence. -/
def AssemblyError.message (e : AssemblyError) : String :=
  "line " ++ String.ofList (Decimal.digits e.line) ++ ": " ++ e.problem.message ++ " in " ++
    Problem.quoted e.text

end Nmos6502
