import Nmos6502.AddressRange

/-!
# Screen

A bitmap of 256 by 256 pixels behind four registers: column, row, intensity and ready. While the ready
register is not zero, the next clock stores the intensity in the pixel at that column and row, and
clears the ready register.
-/

namespace Nmos6502

/-- A bitmap screen. -/
structure Screen where
  range : AddressRange
  x : UInt8
  y : UInt8
  intensity : UInt8
  ready : UInt8
  /-- The pixels, row by row. -/
  bitmap : Vector UInt8 65536

namespace Screen

/-- The number of addresses that a screen occupies. -/
def registerCount : Nat := 4

/-- The number of pixels in a row, and of rows. -/
def width : Nat := 256

/-- A dark screen. -/
def new (range : AddressRange) : Screen :=
  ⟨range, 0, 0, 0, 0, Vector.replicate 65536 0⟩

/-- The place of a pixel in the bitmap. -/
def index (x y : UInt8) : Nat :=
  y.toNat * width + x.toNat

theorem index_lt (x y : UInt8) : index x y < 65536 := by
  have := x.toNat_lt
  have := y.toNat_lt
  simp only [index, width]
  omega

/-- Different pixels have different places. -/
theorem index_inj {x y x' y' : UInt8} : index x y = index x' y' ↔ x = x' ∧ y = y' := by
  have := x.toNat_lt
  have := x'.toNat_lt
  rw [← UInt8.toNat_inj, ← UInt8.toNat_inj]
  simp only [index, width]
  omega

/-- The intensity of a pixel. -/
def pixel (s : Screen) (x y : UInt8) : UInt8 :=
  have := index_lt x y
  s.bitmap[index x y]

/-- Whether a pixel waits for the next clock. -/
def isPending (s : Screen) : Bool :=
  s.ready != 0

/-- The byte at an offset; zero where there is no register. -/
def read (s : Screen) (offset : UInt16) : UInt8 :=
  if offset = 0 then s.x
  else if offset = 1 then s.y
  else if offset = 2 then s.intensity
  else if offset = 3 then s.ready
  else 0

/-- The screen after a register has been written. -/
def write (s : Screen) (offset : UInt16) (value : UInt8) : Screen :=
  if offset = 0 then { s with x := value }
  else if offset = 1 then { s with y := value }
  else if offset = 2 then { s with intensity := value }
  else if offset = 3 then { s with ready := value }
  else s

/-- The screen after a clock. -/
def clock (s : Screen) : Screen :=
  if s.isPending then
    { s with
      ready := 0
      bitmap := s.bitmap.set (index s.x s.y) s.intensity (index_lt s.x s.y) }
  else s

/-- The pixels that are not dark, row by row, each with its column and row. -/
def lit (s : Screen) : List (UInt8 × UInt8 × UInt8) :=
  (s.bitmap.toList.zipIdx.filter fun p => p.1 != 0).map fun p =>
    (UInt8.ofNat (p.2 % width), UInt8.ofNat (p.2 / width), p.1)

/-- A clock changes the pixel that waits, if one does, and no other. -/
theorem pixel_clock (s : Screen) (x y : UInt8) :
    s.clock.pixel x y =
      if s.isPending = true ∧ x = s.x ∧ y = s.y then s.intensity else s.pixel x y := by
  rw [clock]
  split
  · next h =>
    simp only [pixel, Vector.getElem_set, index_inj, h, true_and, eq_comm]
  · next h => simp [h]

end Screen

end Nmos6502
