import Nmos6502.Disassembly.Decoded

/-!
# Listings

A sequence of bytes read as program text: instructions where there are any, and single bytes of data
where the next byte starts none. The items lie end to end and cover the bytes
(`flatMap_bytes_items`), so the text of a listing loses nothing.
-/

namespace Nmos6502

/-- What a line of a listing shows. -/
inductive Item
  | instruction (d : Decoded)
  /-- A byte that does not start an instruction. -/
  | data (address : UInt16) (byte : UInt8)
  deriving DecidableEq, Repr

namespace Item

/-- Where the first byte of an item stands. -/
def address : Item → UInt16
  | instruction d => d.address
  | data address _ => address

/-- The bytes that an item covers. -/
def bytes : Item → List UInt8
  | instruction d => d.bytes
  | data _ byte => [byte]

/-- An item as the assembler takes it. -/
def text : Item → List Char
  | instruction d => d.text
  | data _ byte => ['.', 'b', 'y', 't', 'e', ' '] ++ Hexadecimal.byteText byte

/-- The bytes of an item in hexadecimal, with spaces between them. -/
def hexText (item : Item) : List Char :=
  [' '].intercalate (item.bytes.map Hexadecimal.ofByte)

/-- The width of the column that shows bytes. -/
def hexWidth : Nat := 8

/-- A line of a listing: the address, the bytes, and the text. -/
def listing (item : Item) : List Char :=
  Hexadecimal.addressText item.address ++ [' ', ' '] ++
    item.hexText.rightpad hexWidth ' ' ++ [' ', ' '] ++ item.text

/-- The item at the start of some bytes, the first of which stands at `address`. -/
def first (byte : UInt8) (rest : List UInt8) (address : UInt16) : Item :=
  match Decoded.decode? (byte :: rest) address with
  | some d => instruction d
  | none => data address byte

/-- The items that some bytes make, the first of which stands at `origin`. -/
def ofBytes : List UInt8 → UInt16 → List Item
  | [], _ => []
  | byte :: rest, origin =>
    let item := first byte rest origin
    item :: ofBytes (rest.drop (item.bytes.length - 1)) (origin + UInt16.ofNat item.bytes.length)
  termination_by bytes => bytes.length
  decreasing_by simp only [List.length_drop, List.length_cons]; omega

/-- The item that begins at a place in some bytes, and the place after it. Past the last byte there
is no item, and the place stays. -/
def next (bytes : List UInt8) (origin : UInt16) (place : Nat) : Option Item × Nat :=
  match bytes.drop place with
  | [] => (none, place)
  | byte :: rest =>
    let item := first byte rest (origin + UInt16.ofNat place)
    (some item, place + item.bytes.length)

/-- The texts of a listing, one below the other. -/
def source (items : List Item) : List Char :=
  ['\n'].intercalate (items.map text)

theorem length_bytes_pos (item : Item) : 0 < item.bytes.length := by
  cases item <;> simp [bytes, Decoded.bytes]

/-- The first item is the start of the bytes. -/
theorem bytes_first_append (byte : UInt8) (rest : List UInt8) (address : UInt16) :
    (first byte rest address).bytes ++ rest.drop ((first byte rest address).bytes.length - 1) =
      byte :: rest := by
  rw [first]
  cases h : Decoded.decode? (byte :: rest) address with
  | none => simp [bytes]
  | some d =>
    have := (Decoded.bytes_append_of_decode? h).1
    simp only [bytes, Decoded.bytes, List.length_cons, List.drop_succ_cons, List.cons_append,
      Nat.add_sub_cancel] at this ⊢
    exact this.symm

/-- The items cover the bytes, in order and without a gap. -/
theorem flatMap_bytes_items (bytes : List UInt8) (origin : UInt16) :
    (ofBytes bytes origin).flatMap Item.bytes = bytes := by
  fun_induction ofBytes bytes origin with
  | case1 => rfl
  | case2 byte rest origin item ih =>
    rw [List.flatMap_cons, ih]
    exact bytes_first_append byte rest origin

end Item

end Nmos6502
