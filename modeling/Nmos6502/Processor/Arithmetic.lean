/-!
# Addition and subtraction

The sums that the processor forms of two bytes and a carry, in binary and in packed decimal, with the
flags they set. A subtraction is an addition of the complement, and its carry is clear when it borrows.

In decimal mode the value and the carry of an addition follow the digits, its negative and overflow
flags the sum before the high digit is adjusted, and its zero flag the binary sum; of a subtraction
only the value follows the digits.
-/

namespace Nmos6502

/-- A result with the flags that it sets. -/
structure Sum8 where
  value : UInt8
  carry : Bool
  overflow : Bool
  negative : Bool
  zero : Bool
  deriving DecidableEq, Repr

namespace Sum8

/-- `a + m + carry` in binary. There is an overflow when both numbers have a sign that the result does
not have. -/
def add (a m : UInt8) (carry : Bool) : Sum8 :=
  let sum := a.toNat + m.toNat + carry.toNat
  let value := UInt8.ofNat sum
  { value
    carry := 0xFF < sum
    overflow := (a ^^^ value) &&& (m ^^^ value) &&& 0x80 != 0
    negative := value &&& 0x80 != 0
    zero := value == 0 }

/-- A sum of two decimal digits and a carry, brought past ten by skipping the six numbers that are no
digits. -/
def adjustUp (sum : Nat) : Nat :=
  if 9 < sum then sum + 6 else sum

/-- `a + m + carry` in packed decimal. -/
def addDecimal (a m : UInt8) (carry : Bool) : Sum8 :=
  let low := adjustUp (a.toNat % 16 + m.toNat % 16 + carry.toNat)
  let high := a.toNat / 16 + m.toNat / 16 + if 0xF < low then 1 else 0
  let adjusted := adjustUp high
  { value := UInt8.ofNat (adjusted * 16 + low % 16)
    carry := 0xF < adjusted
    overflow := (UInt8.ofNat (high * 16) ^^^ a) &&& 0x80 != 0 && (a ^^^ m) &&& 0x80 == 0
    negative := high.testBit 3
    zero := (add a m carry).zero }

/-- `a - m - 1 + carry` in binary. -/
def subtract (a m : UInt8) (carry : Bool) : Sum8 :=
  add a (~~~m) carry

/-- A difference of two decimal digits, brought below zero by skipping the six numbers that are no
digits. -/
def adjustDown (difference : Int) : Int :=
  if difference < 0 then difference - 6 else difference

/-- `a - m - 1 + carry` in packed decimal. -/
def subtractDecimal (a m : UInt8) (carry : Bool) : Sum8 :=
  let low : Int := (a.toNat % 16 : Nat) - (m.toNat % 16 : Nat) - (!carry).toNat
  let high : Int := (a.toNat / 16 : Nat) - (m.toNat / 16 : Nat) - if low < 0 then 1 else 0
  { subtract a m carry with
    value := UInt8.ofNat ((adjustDown high * 16 + adjustDown low % 16) % 256).toNat }

end Sum8

end Nmos6502
