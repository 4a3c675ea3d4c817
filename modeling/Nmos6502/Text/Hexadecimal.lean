import Nmos6502.Word

/-!
# Hexadecimal text

Bytes and words are written with two and four digits, letters in upper case; digits are read in
either case. Reading a written byte gives the byte back (`byte?_ofByte`), and so for a whole
sequence of bytes (`bytes?_ofBytes`).
-/

namespace Nmos6502.Hexadecimal

/-- The digit for a number below sixteen. -/
def digit (n : Nat) : Char :=
  if n < 10 then Char.ofNat (n + 48) else Char.ofNat (n + 55)

/-- The number that a digit stands for, its letter in either case. -/
def value? (c : Char) : Option Nat :=
  if '0' ≤ c ∧ c ≤ '9' then some (c.toNat - 48)
  else if 'A' ≤ c ∧ c ≤ 'F' then some (c.toNat - 55)
  else if 'a' ≤ c ∧ c ≤ 'f' then some (c.toNat - 87)
  else none

/-- A byte as two digits. -/
def ofByte (b : UInt8) : List Char :=
  [digit (b.toNat / 16), digit (b.toNat % 16)]

/-- Bytes as pairs of digits, one after the other. -/
def ofBytes (bytes : List UInt8) : List Char :=
  bytes.flatMap ofByte

/-- A word as four digits. -/
def ofWord (w : UInt16) : List Char :=
  ofBytes [highByte w, lowByte w]

/-- A byte as it is named in text: `$` and two digits. -/
def byteText (b : UInt8) : List Char :=
  '$' :: ofByte b

/-- An address as it is named in text: `$` and four digits. -/
def addressText (w : UInt16) : List Char :=
  '$' :: ofWord w

/-- The byte that two digits stand for. -/
def byte? (high low : Char) : Option UInt8 :=
  match value? high, value? low with
  | some h, some l => some (UInt8.ofNat (h * 16 + l))
  | _, _ => none

/-- The bytes that a text of whole pairs of digits stands for. -/
def bytes? : List Char → Option (List UInt8)
  | [] => some []
  | [_] => none
  | high :: low :: rest =>
    match byte? high low, bytes? rest with
    | some b, some bs => some (b :: bs)
    | _, _ => none

theorem value?_digit {n : Nat} (h : n < 16) : value? (digit n) = some n := by
  have : ∀ m : Fin 16, value? (digit m.val) = some m.val := by decide
  exact this ⟨n, h⟩

theorem byte?_ofByte (b : UInt8) :
    byte? (digit (b.toNat / 16)) (digit (b.toNat % 16)) = some b := by
  have hb := b.toNat_lt
  rw [byte?, value?_digit (by omega), value?_digit (by omega)]
  simp only [Option.some.injEq]
  apply UInt8.toNat_inj.mp
  simp only [UInt8.toNat_ofNat']
  omega

theorem bytes?_ofBytes (bytes : List UInt8) : bytes? (ofBytes bytes) = some bytes := by
  induction bytes with
  | nil => rfl
  | cons b bytes ih =>
    simp only [ofBytes, List.flatMap_cons, ofByte, List.cons_append, List.nil_append] at ih ⊢
    rw [bytes?, byte?_ofByte, ih]

end Nmos6502.Hexadecimal
