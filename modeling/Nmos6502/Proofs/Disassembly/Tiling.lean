import Nmos6502.Proofs.Assembly.Sizes
import Nmos6502.Proofs.Disassembly.RoundTrip

/-!
# Listings one item at a time

A listing can be read at once (`Item.ofBytes`) or item by item, with a place that moves on behind
each item (`Item.next`, `Item.placeBehind`). At every place, what is left behind the next item is again
the listing of the bytes that are left (`Item.tail_ofBytes_drop`). An induction on the number of items
carries this through the listing (`Item.drop_ofBytes`), so that the two ways of reading agree and the
items tile the bytes (`Item.ofBytes_tiles`).
-/

namespace Nmos6502

namespace Item

variable {bytes : List UInt8} {origin : UInt16}

/-- The place behind the first `k` items, when they are read one by one. -/
def placeBehind (bytes : List UInt8) (origin : UInt16) : Nat → Nat
  | 0 => 0
  | k + 1 => (next bytes origin (placeBehind bytes origin k)).2

/-! ### One item -/

/-- An item shows one byte as data. -/
def ShowsByte (item : Item) : Prop :=
  ∃ byte, item.bytes = [byte] ∧
    item.text = ['.', 'b', 'y', 't', 'e', ' '] ++ Hexadecimal.byteText byte

/-- The text of an instruction is not taken for data. -/
theorem showsByte_iff {item : Item} : item.ShowsByte ↔ ∃ address byte, item = data address byte := by
  constructor
  · rintro ⟨byte, -, htext⟩
    cases item with
    | data address byte => exact ⟨address, byte, rfl⟩
    | instruction d =>
      have hdot : ∀ i ∈ Instruction.all, i.mnemonic.head? ≠ some '.' ∧ i.mnemonic ≠ [] := by decide
      obtain ⟨hd, hne⟩ := hdot d.opcode.instruction (Instruction.mem_all _)
      obtain ⟨c, rest, hmnemonic⟩ := List.exists_cons_of_ne_nil hne
      have hhead := congrArg List.head? htext
      rw [text_eq] at hhead
      change (d.opcode.instruction.mnemonic ++ _).head? = some '.' at hhead
      rw [hmnemonic] at hhead hd
      exact absurd hhead hd
  · rintro ⟨address, byte, rfl⟩
    exact ⟨byte, rfl, rfl⟩

/-- An item has three bytes at most. -/
theorem length_bytes_first_le (byte : UInt8) (rest : List UInt8) (address : UInt16) :
    (first byte rest address).bytes.length ≤ 3 := by
  have hsound := sound_first byte rest address
  cases h : first byte rest address with
  | data address byte => exact Nat.le_add_left 1 2
  | instruction d =>
    rw [h] at hsound
    have hsize := d.opcode.mode.operandSize_le
    change d.operand.length + 1 ≤ 3
    rw [hsound.2]
    omega

/-- Data is shown where no opcode stands, or where the bytes end before the instruction does. -/
theorem showsByte_first_iff (byte : UInt8) (rest : List UInt8) (address : UInt16) :
    (first byte rest address).ShowsByte ↔ Opcode.decode? byte = none ∨
      ∃ op, Opcode.decode? byte = some op ∧ rest.length + 1 < op.size := by
  rw [showsByte_iff]
  unfold first Decoded.decode?
  dsimp only
  cases hop : Opcode.decode? byte with
  | none => simp
  | some op =>
    have hsize : op.size = op.mode.operandSize + 1 := rfl
    dsimp only
    rw [List.length_take]
    split_ifs with hl
    · have hfits : ¬ rest.length + 1 < op.size := by omega
      simp [hfits]
    · have hlong : rest.length + 1 < op.size := by omega
      simp [hlong]

/-! ### One step -/

theorem next_of_le {place : Nat} (h : bytes.length ≤ place) :
    next bytes origin place = (none, place) := by
  unfold next
  rw [List.drop_eq_nil_of_le h]

/-- An item that is read is the first one of the bytes that are left. -/
theorem of_next {place : Nat} {item : Item} (h : (next bytes origin place).1 = some item) :
    ∃ byte rest, bytes.drop place = byte :: rest ∧
      item = first byte rest (origin + UInt16.ofNat place) := by
  unfold next at h
  split at h
  · cases h
  · next byte rest hdrop => exact ⟨byte, rest, hdrop, (Option.some.inj h).symm⟩

/-- The place moves on by the bytes of the item. -/
theorem next_snd (bytes : List UInt8) (origin : UInt16) (place : Nat) :
    (next bytes origin place).2 =
      place + ((next bytes origin place).1.toList.flatMap Item.bytes).length := by
  unfold next
  split
  · rfl
  · simp

/-- The first item of what is left of a listing is the one that is read next. -/
theorem head?_ofBytes_drop (bytes : List UInt8) (origin : UInt16) (place : Nat) :
    (ofBytes (bytes.drop place) (origin + UInt16.ofNat place)).head? =
      (next bytes origin place).1 := by
  unfold next
  split
  · next hdrop => rw [hdrop, ofBytes, List.head?_nil]
  · next byte rest hdrop => rw [hdrop, ofBytes, List.head?_cons]

/-- What follows the first item of what is left of a listing is left behind the item. -/
theorem tail_ofBytes_drop (bytes : List UInt8) (origin : UInt16) (place : Nat) :
    (ofBytes (bytes.drop place) (origin + UInt16.ofNat place)).tail =
      ofBytes (bytes.drop (next bytes origin place).2)
        (origin + UInt16.ofNat (next bytes origin place).2) := by
  unfold next
  split
  · next hdrop => rw [hdrop, ofBytes, List.tail_nil]
  · next byte rest hdrop =>
    have hpos := (first byte rest (origin + UInt16.ofNat place)).length_bytes_pos
    have hrest : bytes.drop (place + (first byte rest (origin + UInt16.ofNat place)).bytes.length) =
        rest.drop ((first byte rest (origin + UInt16.ofNat place)).bytes.length - 1) := by
      rw [← List.drop_drop, hdrop, List.drop_cons hpos]
    rw [hrest, hdrop, ofBytes, List.tail_cons, UInt16.ofNat_add, UInt16.add_assoc]

/-! ### All items -/

theorem drop_ofBytes (bytes : List UInt8) (origin : UInt16) (k : Nat) :
    (ofBytes bytes origin).drop k =
      ofBytes (bytes.drop (placeBehind bytes origin k))
        (origin + UInt16.ofNat (placeBehind bytes origin k)) := by
  induction k with
  | zero =>
    change ofBytes bytes origin = ofBytes bytes (origin + 0)
    rw [UInt16.add_zero]
  | succ k ih => rw [← List.tail_drop, ih, tail_ofBytes_drop, placeBehind]

theorem next_placeBehind (bytes : List UInt8) (origin : UInt16) (k : Nat) :
    (next bytes origin (placeBehind bytes origin k)).1 = (ofBytes bytes origin)[k]? := by
  rw [← List.head?_drop, drop_ofBytes, head?_ofBytes_drop]

theorem placeBehind_eq (bytes : List UInt8) (origin : UInt16) (k : Nat) :
    placeBehind bytes origin k = (((ofBytes bytes origin).take k).flatMap Item.bytes).length := by
  induction k with
  | zero => rfl
  | succ k ih =>
    rw [placeBehind, next_snd, next_placeBehind, ih, List.take_add_one, List.flatMap_append,
      List.length_append]

/-- A listing has no more items than bytes. -/
theorem length_ofBytes_le (bytes : List UInt8) (origin : UInt16) :
    (ofBytes bytes origin).length ≤ bytes.length := by
  fun_induction ofBytes bytes origin with
  | case1 => exact Nat.le_refl 0
  | case2 byte rest origin item ih =>
    rw [List.length_drop] at ih
    simp only [List.length_cons]
    omega

/-- The items of a listing tile its bytes, and reading them one by one can begin anew behind each. -/
structure Tiles (bytes : List UInt8) (origin : UInt16) (items : List Item) : Prop where
  /-- The items lie end to end and cover the bytes. -/
  covers : items.flatMap Item.bytes = bytes
  size : ∀ item ∈ items, 1 ≤ item.bytes.length ∧ item.bytes.length ≤ 3
  /-- An item stands behind the bytes of the items before it, also beyond the end of memory. -/
  address : ∀ {k : Nat} {item : Item}, items[k]? = some item → item.address.toNat =
    (origin.toNat + ((items.take k).flatMap Item.bytes).length) % memorySize
  /-- Reading one by one, the place is behind all the items that have been read. -/
  place : ∀ k, placeBehind bytes origin k = ((items.take k).flatMap Item.bytes).length
  /-- Reading one by one yields the items, and then none. -/
  next : ∀ k, (next bytes origin (placeBehind bytes origin k)).1 = items[k]?
  /-- There are no more items than bytes. -/
  ends : items.length ≤ bytes.length
  /-- At the end and beyond it nothing is read. -/
  past : ∀ {place : Nat}, bytes.length ≤ place → Item.next bytes origin place = (none, place)
  /-- Behind each item, what is left is the listing of the bytes that are left. -/
  rest : ∀ k, items.drop k = ofBytes (bytes.drop (placeBehind bytes origin k))
    (origin + UInt16.ofNat (placeBehind bytes origin k))
  /-- Data is shown where no opcode stands, or where the bytes end before the instruction does. -/
  data : ∀ {k : Nat} {item : Item}, items[k]? = some item →
    ∃ code, bytes[placeBehind bytes origin k]? = some code ∧ (item.ShowsByte ↔
      Opcode.decode? code = none ∨ ∃ op, Opcode.decode? code = some op ∧
        bytes.length < placeBehind bytes origin k + op.size)

/-- Every item of a listing is the first one of the bytes that are left. -/
theorem exists_first_of_getElem? {k : Nat} {item : Item}
    (h : (ofBytes bytes origin)[k]? = some item) : ∃ byte rest,
      bytes.drop (placeBehind bytes origin k) = byte :: rest ∧
        item = first byte rest (origin + UInt16.ofNat (placeBehind bytes origin k)) := by
  rw [← next_placeBehind] at h
  exact of_next h

/-- **A listing tiles its bytes**, and can be resumed behind each item. -/
theorem ofBytes_tiles (bytes : List UInt8) (origin : UInt16) :
    Tiles bytes origin (ofBytes bytes origin) where
  covers := flatMap_bytes_items bytes origin
  size item hitem := by
    obtain ⟨k, hk⟩ := List.getElem?_of_mem hitem
    obtain ⟨byte, rest, -, rfl⟩ := exists_first_of_getElem? hk
    exact ⟨length_bytes_pos _, length_bytes_first_le byte rest _⟩
  address {k item} hk := by
    obtain ⟨byte, rest, -, rfl⟩ := exists_first_of_getElem? hk
    rw [address_first, ← placeBehind_eq, UInt16.toNat_add, UInt16.toNat_ofNat', Nat.add_mod_mod]
    rfl
  place := placeBehind_eq bytes origin
  next := next_placeBehind bytes origin
  ends := length_ofBytes_le bytes origin
  past := next_of_le
  rest := drop_ofBytes bytes origin
  data {k item} hk := by
    obtain ⟨code, rest, hdrop, rfl⟩ := exists_first_of_getElem? hk
    have hlength := congrArg List.length hdrop
    rw [List.length_drop, List.length_cons] at hlength
    have hcode : bytes[placeBehind bytes origin k]? = some code := by
      rw [← List.head?_drop, hdrop, List.head?_cons]
    have hlong : ∀ op : Opcode, rest.length + 1 < op.size ↔
        bytes.length < placeBehind bytes origin k + op.size := by
      intro op
      omega
    refine ⟨code, hcode, ?_⟩
    rw [showsByte_first_iff]
    simp only [hlong]

/-- Behind an instruction across the end of memory, a listing is resumed at the beginning, with an
opcode whose operand is cut short. -/
theorem ofBytes_tiles_across_the_end :
    (ofBytes [0xA9, 0x42, 0xAD, 0x00] 0xFFFF).drop 1 = ofBytes [0xAD, 0x00] 1 ∧
      ∀ item ∈ (ofBytes [0xA9, 0x42, 0xAD, 0x00] 0xFFFF)[1]?, item.ShowsByte := by
  have hplace : placeBehind [0xA9, 0x42, 0xAD, 0x00] 0xFFFF 1 = 2 := by decide +kernel
  have htiles := ofBytes_tiles [0xA9, 0x42, 0xAD, 0x00] 0xFFFF
  constructor
  · rw [htiles.rest, hplace]
    rfl
  · intro item hitem
    obtain ⟨code, hcode, hshows⟩ := htiles.data hitem
    rw [hplace] at hcode hshows
    cases hcode
    exact hshows.mpr (Or.inr ⟨⟨0xAD, .lda, .absolute, 4⟩, by decide +kernel, by decide⟩)

end Item

end Nmos6502
