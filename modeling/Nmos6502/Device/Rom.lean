import Nmos6502.AddressRange

/-!
# ROM

Memory that can only be read. Its cells hold an image, and zeros behind the image if that is shorter
than the range; a longer image is refused.
-/

namespace Nmos6502

/-- A reason why a device cannot be made. -/
inductive DeviceError
  | range (e : RangeError)
  /-- The image has more bytes than the range has addresses. -/
  | imageTooLarge (image capacity : Nat)
  deriving DecidableEq, Repr

/-- What is said of a device that cannot be made. -/
def DeviceError.message : DeviceError → String
  | range e => e.message
  | imageTooLarge image capacity =>
    "ROM image of " ++ String.ofList (Decimal.digits image) ++ " bytes does not fit a " ++
      String.ofList (Decimal.digits capacity) ++ "-byte range"

/-- Read-only memory. -/
structure Rom where
  range : AddressRange
  cells : Array UInt8
  size_cells : cells.size = range.size

namespace Rom

/-- The cells that an image fills, with zeros behind it. -/
def padded (image : Array UInt8) (size : Nat) : Array UInt8 :=
  Array.ofFn fun i : Fin size => image[i.val]?.getD 0

/-- Memory that holds an image. -/
def ofImage (range : AddressRange) (image : List UInt8) : Except DeviceError Rom :=
  if image.length ≤ range.size then
    .ok ⟨range, padded image.toArray range.size, Array.size_ofFn⟩
  else .error (.imageTooLarge image.length range.size)

/-- The cell at an offset; zero where there is none. -/
def cell (rom : Rom) (offset : Nat) : UInt8 :=
  rom.cells[offset]?.getD 0

/-- The byte at an offset. -/
def read (rom : Rom) (offset : UInt16) : UInt8 :=
  rom.cell offset.toNat

/-- All cells in order. -/
def toList (rom : Rom) : List UInt8 :=
  rom.cells.toList

/-- A cell holds the byte of the image at its offset, or zero behind the image. -/
theorem cell_of_ofImage {range : AddressRange} {image : List UInt8} {rom : Rom}
    (h : ofImage range image = .ok rom) (offset : Nat) : rom.cell offset = image.getD offset 0 := by
  rw [ofImage] at h
  split at h
  · next hle =>
    simp only [Except.ok.injEq] at h
    subst h
    simp only [cell, padded, Array.getElem?_ofFn, List.getElem?_toArray, List.getD]
    split
    · rfl
    · rw [List.getElem?_eq_none (by omega)]
  · simp at h

end Rom

end Nmos6502
