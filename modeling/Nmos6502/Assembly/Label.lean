/-!
# Labels

What may name a position in a program: a letter followed by letters, digits and underscores, all
ASCII, at most 32 bytes in UTF-8. `Label.fault?` finds the first rule that a name breaks.
-/

namespace Nmos6502.Label

/-- The greatest length of a label, in bytes of UTF-8. -/
def maxSize : Nat := 32

/-- The length of a text in bytes of UTF-8. -/
def utf8Size : List Char → Nat
  | [] => 0
  | c :: rest => c.utf8Size + utf8Size rest

/-- Whether a character may stand after the first in a label. -/
def isPart (c : Char) : Bool :=
  c.isAlphanum || c == '_'

/-- The rule that a name breaks. -/
inductive Fault
  | empty
  | tooLong (name : List Char)
  | badStart (c : Char)
  | badCharacter (c : Char)
  deriving DecidableEq, Repr

/-- What is said of a name that is no label. -/
def Fault.message : Fault → String
  | empty => "label name cannot be empty"
  | tooLong name => "label name too long (max 32 characters): " ++ String.ofList name
  | badStart c => "label must start with a letter, not '" ++ c.toString ++ "'"
  | badCharacter c =>
    "label contains invalid character '" ++ c.toString ++
      "' (only letters, digits, and underscores allowed)"

/-- The first rule that a name breaks; none if it is a label. -/
def fault? : List Char → Option Fault
  | [] => some .empty
  | first :: rest =>
    if maxSize < utf8Size (first :: rest) then some (.tooLong (first :: rest))
    else if !first.isAlpha then some (.badStart first)
    else (rest.find? fun c => !isPart c).map .badCharacter

/-- Whether a name is a label. -/
def isLabel (name : List Char) : Bool :=
  (fault? name).isNone

theorem isLabel_cons_iff {first : Char} {rest : List Char} :
    isLabel (first :: rest) = true ↔
      utf8Size (first :: rest) ≤ maxSize ∧ first.isAlpha = true ∧ ∀ c ∈ rest, isPart c = true := by
  rw [isLabel, fault?]
  split
  · next h => simp; omega
  · next h =>
    split
    · next h' => simp_all
    · next h' => simp_all

end Nmos6502.Label
