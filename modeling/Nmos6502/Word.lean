/-!
# Words and bytes

An address is a word of sixteen bits; memory holds it as two bytes, the low one first. Arithmetic on
both wraps, as the processor's does. A word is determined by its two bytes (`word_lowByte_highByte`),
and they by it (`lowByte_word`, `highByte_word`).
-/

namespace Nmos6502

/-- The word with the given low and high byte. -/
def word (low high : UInt8) : UInt16 :=
  high.toUInt16 * 256 + low.toUInt16

/-- The low byte of a word. -/
def lowByte (w : UInt16) : UInt8 :=
  w.toUInt8

/-- The high byte of a word, which is its page. -/
def highByte (w : UInt16) : UInt8 :=
  (w / 256).toUInt8

/-- A word as the bytes that memory holds, low byte first. -/
def littleEndian (w : UInt16) : List UInt8 :=
  [lowByte w, highByte w]

/-- Whether two addresses lie on one page of 256 bytes. -/
def samePage (a b : UInt16) : Bool :=
  highByte a == highByte b

/-- A byte read as a signed number and widened to a word. -/
def signExtend (offset : UInt8) : UInt16 :=
  if offset < 128 then offset.toUInt16 else offset.toUInt16 + 0xFF00

theorem toNat_word (low high : UInt8) :
    (word low high).toNat = high.toNat * 256 + low.toNat := by
  have := low.toNat_lt
  have := high.toNat_lt
  simp only [word, UInt16.toNat_add, UInt16.toNat_mul, UInt8.toNat_toUInt16, UInt16.reduceToNat]
  omega

theorem toNat_lowByte (w : UInt16) : (lowByte w).toNat = w.toNat % 256 := by
  simp [lowByte]

theorem toNat_highByte (w : UInt16) : (highByte w).toNat = w.toNat / 256 := by
  have := w.toNat_lt
  simp only [highByte, UInt16.toNat_toUInt8, UInt16.toNat_div, UInt16.reduceToNat]
  omega

@[simp] theorem lowByte_word (low high : UInt8) : lowByte (word low high) = low := by
  apply UInt8.toNat_inj.mp
  have := low.toNat_lt
  rw [toNat_lowByte, toNat_word]
  omega

@[simp] theorem highByte_word (low high : UInt8) : highByte (word low high) = high := by
  apply UInt8.toNat_inj.mp
  have := low.toNat_lt
  rw [toNat_highByte, toNat_word]
  omega

@[simp] theorem word_lowByte_highByte (w : UInt16) : word (lowByte w) (highByte w) = w := by
  apply UInt16.toNat_inj.mp
  rw [toNat_word, toNat_lowByte, toNat_highByte]
  omega

end Nmos6502
