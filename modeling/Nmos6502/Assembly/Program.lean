import Nmos6502.Assembly.Line
import Nmos6502.Assembly.Statement
import Nmos6502.Event

/-!
# Programs

Assembly in two passes. The first walks the lines in order: it gives each label the address of the
statement that comes next and encodes each statement at its address, with zeros where a label's
address is still to come. The second fills these in, in the order of the statements. An error of the
first pass therefore comes before every error of the second.
-/

namespace Nmos6502

/-- The size of the address space. -/
def memorySize : Nat := 0x10000

/-- What the first pass makes of some lines: the statements in order, the symbols known after the
lines, and the address after the last statement. -/
structure Layout where
  statements : List Statement
  symbols : Symbols
  position : Nat
  deriving DecidableEq, Repr

namespace Layout

/-- The symbols once a line's label, if it has one, stands for `position`. -/
def placeLabel (symbols : Symbols) (position line : Nat) :
    Option (List Char) → Except Problem Symbols
  | none => .ok symbols
  | some name =>
    match Label.fault? name with
    | some fault => .error (.invalidLabel fault)
    | none =>
      if position < memorySize then
        match symbols.define ⟨name, UInt16.ofNat position, line⟩ with
        | .error earlier => .error (.duplicateLabel name earlier.line)
        | .ok symbols => .ok symbols
      else .error (.labelPastEnd name)

/-- The statements of a line, of which there is at most one, placed at `position`. -/
def placeStatement (position number : Nat) (line : Line) : Except Problem (List Statement) :=
  match line.mnemonic with
  | none => .ok []
  | some mnemonic =>
    match Statement.encode mnemonic line.operand (UInt16.ofNat position) number with
    | .error problem => .error problem
    | .ok s =>
      if position + s.bytes.length ≤ memorySize then .ok [s] else .error .programPastEnd

/-- The number of bytes of some statements. -/
def size (statements : List Statement) : Nat :=
  (statements.flatMap Statement.bytes).length

/-- What one line adds to the symbols known before it. -/
def ofLine (symbols : Symbols) (position number : Nat) (line : Line) : Except Problem Layout :=
  match placeLabel symbols position number line.label with
  | .error problem => .error problem
  | .ok symbols =>
    match placeStatement position number line with
    | .error problem => .error problem
    | .ok statements => .ok ⟨statements, symbols, position + size statements⟩

/-- The first pass over some lines, the first of which has the given number and begins at
`position`, with the symbols of the lines before. -/
def ofLines (symbols : Symbols) (position number : Nat) :
    List (List Char) → Except AssemblyError Layout
  | [] => .ok ⟨[], symbols, position⟩
  | text :: rest =>
    match ofLine symbols position number (Line.parse text) with
    | .error problem => .error ⟨problem, number, trim text⟩
    | .ok first =>
      match ofLines first.symbols first.position (number + 1) rest with
      | .error e => .error e
      | .ok others => .ok { others with statements := first.statements ++ others.statements }

end Layout

namespace Statement

/-- The statement with its label's address, as the symbols give it, filled in. -/
def resolve (symbols : Symbols) (s : Statement) : Except Problem Statement :=
  match s.label with
  | none => .ok s
  | some (name, _) =>
    match symbols.resolve? name with
    | none => .error (.undefinedLabel name)
    | some target => s.patch target

/-- The second pass: the bytes of some statements one after the other. `texts` are the lines of the
whole program. -/
def link (symbols : Symbols) (texts : List (List Char)) :
    List Statement → Except AssemblyError (List UInt8)
  | [] => .ok []
  | s :: rest =>
    match s.resolve symbols with
    | .error problem => .error ⟨problem, s.line, trim (texts.getD (s.line - 1) [])⟩
    | .ok s => (link symbols texts rest).map fun bytes => s.bytes ++ bytes

end Statement

/-- An assembled program. -/
structure Program where
  /-- The address of the first byte. -/
  origin : UInt16
  bytes : List UInt8
  /-- The labels that the program defines, in the order of their lines. -/
  symbols : Symbols
  deriving DecidableEq, Repr

namespace Program

/-- The program that a source text describes, its first byte at `origin`. -/
def assemble (origin : UInt16) (source : List Char) : Except AssemblyError Program :=
  let texts := lines source
  match Layout.ofLines .empty origin.toNat 1 texts with
  | .error e => .error e
  | .ok layout =>
    (Statement.link layout.symbols texts layout.statements).map fun bytes =>
      ⟨origin, bytes, layout.symbols⟩

/-- What an assembly reports: a failed one nothing. -/
def events : Except AssemblyError Program → List Event
  | .error _ => []
  | .ok program => [.assemblyComplete program.origin program.bytes.length]

end Program

end Nmos6502
