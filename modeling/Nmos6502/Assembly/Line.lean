import Nmos6502.Text.Blank

/-!
# Source lines

A line of assembly text has the shape `label: mnemonic operand ; comment`, in which every part may be
missing. `Line.parse` only separates the parts: the comment is dropped, the operand loses its blanks,
and what the parts mean is not looked at.
-/

namespace Nmos6502

/-- The parts of a line of assembly text. -/
structure Line where
  label : Option (List Char)
  /-- The name of an instruction or a directive, as written. -/
  mnemonic : Option (List Char)
  /-- The operand without its blanks; empty if there is none. -/
  operand : List Char
  deriving DecidableEq, Repr

namespace Line

/-- Whether a line has neither a label nor a statement. -/
def isEmpty (line : Line) : Bool :=
  line.label.isNone && line.mnemonic.isNone

/-- A line up to its comment, without blanks at either end. -/
def withoutComment (text : List Char) : List Char :=
  trim (text.takeWhile (· != ';'))

/-- What stands before the first colon, if that is a single word, and what stands after it;
otherwise no label and the whole text. -/
def splitLabel (code : List Char) : Option (List Char) × List Char :=
  let head := trim (code.takeWhile (· != ':'))
  if ':' ∈ code ∧ head ≠ [] ∧ head.any isBlank = false then
    (some head, trim (code.dropWhile (· != ':')).tail)
  else (none, code)

/-- The parts of a line. -/
def parse (text : List Char) : Line :=
  match splitLabel (withoutComment text) with
  | (label, []) => ⟨label, none, []⟩
  | (label, rest) =>
    ⟨label, some (rest.takeWhile fun c => !isBlank c), squeeze (rest.dropWhile fun c => !isBlank c)⟩

end Line

end Nmos6502
