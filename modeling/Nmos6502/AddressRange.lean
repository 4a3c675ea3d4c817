import Nmos6502.Text.Decimal
import Nmos6502.Text.Hexadecimal

/-!
# Address ranges

The addresses that a device answers to: all from a first to a last, both included. A range holds at
least one address, so its size is between 1 and 65536, and the offset of an address in it is smaller
than its size (`toNat_offset_lt_size`).
-/

namespace Nmos6502

/-- The addresses from `first` to `last`. -/
structure AddressRange where
  first : UInt16
  last : UInt16
  first_le_last : first ≤ last
  deriving DecidableEq

/-- A reason why addresses do not make a range. -/
inductive RangeError
  | reversed (first last : UInt16)
  /-- The range would be empty, or run past the last address. -/
  | misfit (first : UInt16) (size : Nat)
  deriving DecidableEq, Repr

/-- Two addresses as the bounds of a range. -/
def boundsText (first last : UInt16) : String :=
  String.ofList (Hexadecimal.addressText first ++ ['-'] ++ Hexadecimal.addressText last)

/-- What is said of addresses that do not make a range. -/
def RangeError.message : RangeError → String
  | reversed first last =>
    "invalid address range " ++ boundsText first last ++ ": start is after end"
  | misfit first size =>
    "a " ++ String.ofList (Decimal.digits size) ++ "-byte device cannot start at " ++
      String.ofList (Hexadecimal.addressText first)

namespace AddressRange

/-- The range with the given bounds. -/
def ofBounds (first last : UInt16) : Except RangeError AddressRange :=
  if h : first ≤ last then .ok ⟨first, last, h⟩ else .error (.reversed first last)

/-- The last of `size` addresses, if there is one below the end of memory. -/
theorem toNat_last {first : UInt16} {size : Nat} (h : 0 < size ∧ first.toNat + size ≤ 0x10000) :
    (UInt16.ofNat (first.toNat + size - 1)).toNat = first.toNat + size - 1 := by
  simp only [UInt16.toNat_ofNat']
  omega

theorem first_le_of_fits {first : UInt16} {size : Nat}
    (h : 0 < size ∧ first.toNat + size ≤ 0x10000) :
    first ≤ UInt16.ofNat (first.toNat + size - 1) := by
  rw [UInt16.le_iff_toNat_le, toNat_last h]
  omega

/-- The range of a given size from a given address on. -/
def ofSize (first : UInt16) (size : Nat) : Except RangeError AddressRange :=
  if h : 0 < size ∧ first.toNat + size ≤ 0x10000 then
    .ok ⟨first, UInt16.ofNat (first.toNat + size - 1), first_le_of_fits h⟩
  else .error (.misfit first size)

/-- How many addresses a range has. -/
def size (r : AddressRange) : Nat :=
  (r.last - r.first).toNat + 1

/-- Whether an address lies in a range. -/
def contains (r : AddressRange) (address : UInt16) : Bool :=
  r.first ≤ address && address ≤ r.last

/-- The distance of an address from the first of a range. -/
def offset (r : AddressRange) (address : UInt16) : UInt16 :=
  address - r.first

/-- The bounds of a range in text. -/
def text (r : AddressRange) : String :=
  boundsText r.first r.last

theorem contains_iff {r : AddressRange} {address : UInt16} :
    r.contains address = true ↔ r.first.toNat ≤ address.toNat ∧ address.toNat ≤ r.last.toNat := by
  simp [contains, UInt16.le_iff_toNat_le]

theorem size_eq (r : AddressRange) : r.size = r.last.toNat - r.first.toNat + 1 := by
  rw [size, UInt16.toNat_sub_of_le _ _ r.first_le_last]

theorem toNat_offset {r : AddressRange} {address : UInt16} (h : r.contains address = true) :
    (r.offset address).toNat = address.toNat - r.first.toNat := by
  rw [offset, UInt16.toNat_sub_of_le]
  exact UInt16.le_iff_toNat_le.mpr (contains_iff.mp h).1

/-- The offset of an address of the range is smaller than the size of the range. -/
theorem toNat_offset_lt_size {r : AddressRange} {address : UInt16}
    (h : r.contains address = true) : (r.offset address).toNat < r.size := by
  have := contains_iff.mp h
  rw [toNat_offset h, size_eq]
  omega

/-- A sized range exists exactly when it holds an address and ends within memory. -/
theorem ofSize_eq_ok_iff {first : UInt16} {size : Nat} {r : AddressRange} :
    ofSize first size = .ok r ↔
      r.first = first ∧ r.size = size ∧ 0 < size ∧ first.toNat + size ≤ 0x10000 := by
  rw [ofSize]
  split
  · next h =>
    have hlast := toNat_last h
    simp only [Except.ok.injEq]
    constructor
    · rintro rfl
      refine ⟨rfl, ?_, h⟩
      rw [size_eq]
      dsimp only
      omega
    · rintro ⟨rfl, hsize, -, -⟩
      rcases r with ⟨f, l, hle⟩
      have := UInt16.le_iff_toNat_le.mp hle
      rw [size_eq] at hsize
      dsimp only at hsize hlast h
      simp only [AddressRange.mk.injEq, true_and]
      apply UInt16.toNat_inj.mp
      omega
  · next h =>
    simp only [reduceCtorEq, false_iff]
    exact fun ⟨_, _, h'⟩ => h h'

end AddressRange

end Nmos6502
