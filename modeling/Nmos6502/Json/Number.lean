import Nmos6502.Text.Decimal

/-!
# Numbers in JSON

A number is kept as it is written: a sign, the digits before and after the point, and a power of ten.
Two things are asked of it: whether it is written as a natural number (`natural?`), and whether it is
small enough to have a value at all (`isFinite`). For the latter a number is the product of two
doubles, its leading digits as far as they fit in 64 bits, and the power of ten that remains.
-/

namespace Nmos6502

/-- A power of ten as it is written. -/
structure PowerOfTen where
  negative : Bool
  digits : List Char
  deriving DecidableEq, Repr

/-- A number as it is written. -/
structure Number where
  negative : Bool
  /-- The digits before the point. -/
  whole : List Char
  /-- The digits after the point; none if there is no point. -/
  fraction : List Char
  power : Option PowerOfTen
  deriving DecidableEq, Repr

namespace Number

/-- The value of a number that is written as a natural number. -/
def natural? (n : Number) : Option Nat :=
  if n.negative = false ∧ n.fraction = [] ∧ n.power = none then some (Decimal.value n.whole)
  else none

/-- A natural number as it is written. -/
def ofNat (n : Nat) : Number :=
  ⟨false, Decimal.digits n, [], none⟩

/-- How a number is written. -/
def text (n : Number) : List Char :=
  let sign (negative : Bool) : List Char := if negative then ['-'] else []
  let fraction := if n.fraction.isEmpty then [] else '.' :: n.fraction
  let power := match n.power with
    | none => []
    | some p => 'e' :: sign p.negative ++ p.digits
  sign n.negative ++ n.whole ++ fraction ++ power

/-! ### Reading -/

/-- A nonempty sequence of digits at the start of a text, and the rest. -/
def digits? (text : List Char) : Option (List Char × List Char) :=
  match text.span Decimal.isDigit with
  | ([], _) => none
  | (digits, rest) => some (digits, rest)

/-- The digits before the point, which begin with zero only if they are a single zero. -/
def whole? (text : List Char) : Option (List Char × List Char) :=
  match digits? text with
  | some ('0' :: _ :: _, _) => none
  | result => result

/-- The digits after the point, if there is one. -/
def fraction? : List Char → Option (List Char × List Char)
  | '.' :: rest => digits? rest
  | rest => some ([], rest)

/-- The power of ten, if one is written, up to the end of the text. -/
def power? : List Char → Option (Option PowerOfTen)
  | [] => some none
  | c :: rest =>
    if c = 'e' ∨ c = 'E' then
      let (negative, rest) := match rest with
        | '-' :: rest => (true, rest)
        | '+' :: rest => (false, rest)
        | rest => (false, rest)
      match digits? rest with
      | some (digits, []) => some (some ⟨negative, digits⟩)
      | _ => none
    else none

/-- The number without a sign that a text stands for. -/
def unsigned? (negative : Bool) (text : List Char) : Option Number :=
  match whole? text with
  | none => none
  | some (whole, rest) =>
    match fraction? rest with
    | none => none
    | some (fraction, rest) => (power? rest).map fun power => ⟨negative, whole, fraction, power⟩

/-- The number that a text stands for. -/
def ofText? : List Char → Option Number
  | '-' :: rest => unsigned? true rest
  | text => unsigned? false text

/-! ### Size -/

/-- The greatest significand. -/
def maxSignificand : Nat := 0xFFFFFFFFFFFFFFFF

/-- A significand continued by digits as long as it fits, and the digits that are left. -/
def significand (n : Nat) : List Char → Nat × List Char
  | [] => (n, [])
  | c :: rest =>
    if Decimal.append n c ≤ maxSignificand then significand (Decimal.append n c) rest
    else (n, c :: rest)

/-- A natural number rounded to 53 binary digits, half to even. -/
def toDouble (n : Nat) : Nat :=
  if n < Nat.pow 2 53 then n
  else
    let unit := Nat.pow 2 (n.log2 - 52)
    let quotient := n / unit
    let twice := 2 * (n % unit)
    if unit < twice ∨ (twice = unit ∧ quotient % 2 = 1) then (quotient + 1) * unit
    else quotient * unit

/-- The least natural number that is rounded to no double. -/
def overflow : Nat := Nat.pow 2 1024 - Nat.pow 2 970

/-- The greatest power of ten that a double holds. -/
def maxPower : Nat := 308

/-- Powers of ten from this one on are not told apart. -/
def endlessPower : Nat := 0x80000000

/-- Whether a significand times a power of ten is a finite double. A negative power never leads out of
the doubles. -/
def fits (significand : Nat) (power : Int) : Bool :=
  significand == 0 || power < 0 ||
    (power ≤ maxPower &&
      toDouble significand * toDouble (Nat.pow 10 power.toNat) < overflow)

/-- Whether a number is a finite double. -/
def isFinite (n : Number) : Bool :=
  let (whole, dropped) := significand 0 n.whole
  let (value, rest) := significand whole n.fraction
  let power : Int := (dropped.length : Int) - ((n.fraction.length - rest.length : Nat) : Int)
  match n.power with
  | none => fits value power
  | some ⟨negative, digits⟩ =>
    let written := Decimal.value digits
    if negative then fits value (power - written)
    else if written < endlessPower then fits value (power + written)
    else value == 0

end Number

end Nmos6502
