import Nmos6502.Proofs.Processor.Decoding

/-!
# The way to an operand

Behind the opcode the processor reads the operand bytes and, in three modes, the two bytes of the
pointer that they lead to (`Registers.wayTo`). What it finds on this way (`Approach`) tells where
the operand is (`Approach.place`) and whether the way leads to another page (`Approach.crosses`):
indexing does so exactly when it carries out of the low byte (`samePage_add_index`). To locate an
operand is to go this way and to do nothing else (`Registers.run_locate`).

A documented instruction is carried out behind its opcode (`Registers.run_instruction_of_decode?`),
and with the operand located it comes down to its effect (`Registers.run_execute`).
-/

namespace Nmos6502

/-! ### Words -/

/-- An index leads to another page exactly when it carries out of the low byte. -/
theorem samePage_add_index (base : UInt16) (index : UInt8) :
    samePage base (base + index.toUInt16) = !decide (256 ≤ (lowByte base).toNat + index.toNat) := by
  have hb := base.toNat_lt
  have hi := index.toNat_lt
  rw [Bool.eq_iff_iff, Bool.not_eq_true', decide_eq_false_iff_not]
  unfold samePage
  rw [beq_iff_eq, ← UInt8.toNat_inj, toNat_highByte, toNat_highByte, toNat_lowByte,
    UInt16.toNat_add, UInt8.toNat_toUInt16]
  omega

theorem and_high_mask (w : UInt16) : w &&& 0xFF00 = word 0 (highByte w) := by
  have hw := w.toNat_lt
  have hzero : UInt8.toNat 0 = 0 := rfl
  have hbits : w.toNat &&& 0xFF <<< 8 = (w.toNat >>> 8 &&& 0xFF) <<< 8 := by
    refine Nat.eq_of_testBit_eq fun i => ?_
    rw [Nat.testBit_and, Nat.testBit_shiftLeft, Nat.testBit_shiftLeft, Nat.testBit_and,
      Nat.testBit_shiftRight]
    by_cases hi : 8 ≤ i <;> simp [hi]
  have hmod : w.toNat >>> 8 &&& 0xFF = w.toNat >>> 8 % 256 := Nat.and_two_pow_sub_one_eq_mod _ 8
  apply UInt16.toNat_inj.mp
  rw [toNat_word, toNat_highByte, UInt16.toNat_and]
  refine hbits.trans ?_
  rw [hmod, Nat.shiftRight_eq_div_pow, Nat.shiftLeft_eq]
  omega

theorem and_low_mask (w : UInt16) : w &&& 0x00FF = (lowByte w).toUInt16 := by
  apply UInt16.toNat_inj.mp
  rw [UInt16.toNat_and, UInt8.toNat_toUInt16, toNat_lowByte]
  exact Nat.and_two_pow_sub_one_eq_mod w.toNat 8

theorem word_zero_or (low high : UInt8) : word 0 high ||| low.toUInt16 = word low high := by
  have hzero : UInt8.toNat 0 = 0 := rfl
  have hor := Nat.two_pow_add_eq_or_of_lt low.toNat_lt high.toNat
  apply UInt16.toNat_inj.mp
  rw [UInt16.toNat_or, UInt8.toNat_toUInt16, toNat_word, toNat_word, hzero, Nat.add_zero,
    Nat.mul_comm]
  exact hor.symm

/-- The address behind another one, in the same page. -/
theorem word_lowByte_add_one (w : UInt16) :
    word (lowByte w + 1) (highByte w) = w &&& 0xFF00 ||| (w + 1) &&& 0x00FF := by
  have hlow : lowByte (w + 1) = lowByte w + 1 := UInt16.toUInt8_add w 1
  rw [and_high_mask, and_low_mask, word_zero_or, hlow]

/-! ### Reads one after the other -/

/-- Reads of some addresses, one after the other. -/
def BusAct.reads (addresses : List UInt16) : List BusAct :=
  addresses.map .read

/-- The bytes that reads of some addresses find, one after the other. -/
def Bus.finds (bus : Bus) : List UInt16 → List UInt8
  | [] => []
  | address :: rest => bus.peek address :: (bus.afterRead address).finds rest

/-- Some addresses in a row. -/
def addressesFrom (address : UInt16) : Nat → List UInt16
  | 0 => []
  | n + 1 => address :: addressesFrom (address + 1) n

theorem Activity.run_readBytes (address : UInt16) (n : Nat) (bus : Bus) :
    ((readBytes address n).run bus).value = bus.finds (addressesFrom address n) ∧
      Entry.acts ((readBytes address n).run bus).journal =
        BusAct.reads (addressesFrom address n) := by
  induction n generalizing address bus with
  | zero => exact ⟨rfl, rfl⟩
  | succ n ih =>
    obtain ⟨hvalue, hacts⟩ := ih (address + 1) (bus.afterRead address)
    unfold readBytes
    simp only [run_bind, run_readByte, run_pure, List.append_nil, hvalue]
    exact ⟨rfl, congrArg (BusAct.read address :: ·) hacts⟩

/-! ### What the processor finds on its way -/

/-- What the processor finds on its way to an operand. -/
structure Approach where
  /-- The bytes behind the opcode. -/
  operand : List UInt8
  /-- The bytes of the pointer that they lead to; none if the mode has no pointer. -/
  pointer : List UInt8

namespace Registers

/-- The addresses of the operand bytes of the instruction at the program counter. -/
def operandAddresses (r : Registers) (mode : AddressingMode) : List UInt16 :=
  addressesFrom (r.pc + 1) mode.operandSize

/-- The addresses of the pointer that the operand bytes lead to. It wraps around in the zero page,
and in the page where it begins. -/
def pointerAddresses (r : Registers) (mode : AddressingMode) (operand : List UInt8) :
    List UInt16 :=
  let low := operand.getD 0 0
  let pointer := word low (operand.getD 1 0)
  match mode with
  | .indirect => [pointer, pointer &&& 0xFF00 ||| (pointer + 1) &&& 0x00FF]
  | .indirectX => [(low + r.x).toUInt16, (low + r.x + 1).toUInt16]
  | .indirectY => [low.toUInt16, (low + 1).toUInt16]
  | _ => []

/-- What the processor finds on its way to the operand of the instruction at the program counter,
once it has read the opcode. -/
def approach (r : Registers) (mode : AddressingMode) (bus : Bus) : Approach :=
  let operand := bus.finds (r.operandAddresses mode)
  let found := bus.after (BusAct.reads (r.operandAddresses mode))
  ⟨operand, found.finds (r.pointerAddresses mode operand)⟩

/-- The addresses that the processor reads on this way. -/
def wayTo (r : Registers) (mode : AddressingMode) (bus : Bus) : List UInt16 :=
  r.operandAddresses mode ++ r.pointerAddresses mode (r.approach mode bus).operand

end Registers

namespace Approach

/-- The first operand byte. -/
def low (w : Approach) : UInt8 :=
  w.operand.getD 0 0

/-- The address that is indexed in the modes that index an address of two bytes. -/
def base (w : Approach) : AddressingMode → UInt16
  | .indirect | .indirectX | .indirectY => word (w.pointer.getD 0 0) (w.pointer.getD 1 0)
  | _ => word w.low (w.operand.getD 1 0)

/-- The address that an operand has, or that a branch or a jump leads to. -/
def address? (w : Approach) (r : Registers) (mode : AddressingMode) : Option UInt16 :=
  match mode with
  | .implied | .accumulator | .immediate => none
  | .zeroPage => some w.low.toUInt16
  | .zeroPageX => some (w.low + r.x).toUInt16
  | .zeroPageY => some (w.low + r.y).toUInt16
  | .relative => some (branchTarget r.pc w.low)
  | .absolute | .indirect | .indirectX => some (w.base mode)
  | .absoluteX => some (w.base mode + r.x.toUInt16)
  | .absoluteY | .indirectY => some (w.base mode + r.y.toUInt16)

/-- The place of the operand. -/
def place (w : Approach) (r : Registers) (mode : AddressingMode) : Place :=
  match mode with
  | .implied => .nowhere
  | .accumulator => .accumulator
  | .immediate => .literal w.low
  | _ => ((w.address? r mode).map Place.memory).getD .nowhere

/-- The index that may carry into the high byte of an address. -/
def index? (r : Registers) : AddressingMode → Option UInt8
  | .absoluteX => some r.x
  | .absoluteY | .indirectY => some r.y
  | _ => none

/-- Whether indexing carries out of the low byte, or a branch leads to another page than that of the
next instruction. -/
def crosses (w : Approach) (r : Registers) (mode : AddressingMode) : Bool :=
  if mode = .relative then highByte (r.pc + 2) != highByte (branchTarget r.pc w.low)
  else
    match index? r mode with
    | some index => 256 ≤ (lowByte (w.base mode)).toNat + index.toNat
    | none => false

/-- Where the operand is. -/
def location (w : Approach) (r : Registers) (mode : AddressingMode) : Location :=
  ⟨w.place r mode, w.crosses r mode⟩

theorem address?_location (w : Approach) (r : Registers) (mode : AddressingMode) :
    (w.location r mode).address? = w.address? r mode := by
  cases mode <;> rfl

end Approach

namespace Registers

theorem reached_add_index (base : UInt16) (index : UInt8) :
    Location.reached base (base + index.toUInt16) =
      ⟨.memory (base + index.toUInt16), decide (256 ≤ (lowByte base).toNat + index.toNat)⟩ := by
  unfold Location.reached
  rw [samePage_add_index, Bool.not_not]

/-- With the operand bytes at hand, the processor follows the pointer that they lead to. -/
theorem run_locateAt (r : Registers) (mode : AddressingMode) (operand : List UInt8) (bus : Bus) :
    ((r.locateAt mode operand).run bus).value =
        Approach.location ⟨operand, bus.finds (r.pointerAddresses mode operand)⟩ r mode ∧
      Entry.acts ((r.locateAt mode operand).run bus).journal =
        BusAct.reads (r.pointerAddresses mode operand) := by
  cases mode with
  | absoluteX => exact ⟨reached_add_index _ r.x, rfl⟩
  | absoluteY => exact ⟨reached_add_index _ r.y, rfl⟩
  | indirectY => exact ⟨reached_add_index _ r.y, rfl⟩
  | indirect =>
    unfold locateAt pagedWord pointerAddresses
    dsimp only
    rw [word_lowByte_add_one]
    exact ⟨rfl, rfl⟩
  | _ => exact ⟨rfl, rfl⟩

/-- **To locate an operand** is to read the way to it. -/
theorem run_locate (r : Registers) (mode : AddressingMode) (bus : Bus) :
    ((r.locate mode).run bus).value = (r.approach mode bus).location r mode ∧
      Entry.acts ((r.locate mode).run bus).journal = BusAct.reads (r.wayTo mode bus) ∧
      ((r.locate mode).run bus).bus = bus.after (BusAct.reads (r.wayTo mode bus)) := by
  obtain ⟨hvalue, hacts⟩ := Activity.run_readBytes r.operandAddress mode.operandSize bus
  have hbus := (Activity.readBytes r.operandAddress mode.operandSize).run_bus bus
  rw [hacts] at hbus
  have hrest := r.run_locateAt mode (r.approach mode bus).operand
    (bus.after (BusAct.reads (r.operandAddresses mode)))
  have hlocate :
      Entry.acts ((r.locate mode).run bus).journal = BusAct.reads (r.wayTo mode bus) := by
    rw [locate_eq, Activity.run_bind, Entry.acts_append, hacts, hvalue, hbus]
    refine (congrArg _ hrest.2).trans ?_
    exact List.map_append.symm
  refine ⟨?_, hlocate, ?_⟩
  · rw [locate_eq, Activity.run_bind, hvalue, hbus]
    exact hrest.1
  · rw [Activity.run_bus, hlocate]

/-! ### Behind the way -/

/-- What becomes of the registers and the bus when the effect of an instruction is performed; on the
bus the opcode has been read. -/
def performed (r : Registers) (op : Opcode) (bus : Bus) : Ran (Registers × Nat) :=
  (perform { r with pc := r.pc + UInt16.ofNat op.size } op.instruction.effect
    ((r.approach op.mode bus).location r op.mode)).run
      (bus.after (BusAct.reads (r.wayTo op.mode bus)))

/-- **An instruction** goes the way to its operand and performs its effect. -/
theorem run_execute (r : Registers) (op : Opcode) (bus : Bus) :
    ((r.execute op).run bus).value = ((r.performed op bus).value.1,
        op.cycles + pageCost op.instruction ((r.approach op.mode bus).location r op.mode) +
          (r.performed op bus).value.2) ∧
      Entry.acts ((r.execute op).run bus).journal =
        BusAct.reads (r.wayTo op.mode bus) ++ Entry.acts (r.performed op bus).journal := by
  obtain ⟨hvalue, hacts, hbus⟩ := r.run_locate op.mode bus
  unfold execute
  simp only [Activity.run_bind, Activity.run_report, Activity.run_pure, hvalue, hbus,
    Entry.acts_append, hacts, List.append_nil]
  exact ⟨rfl, rfl⟩

/-- **A documented instruction** is carried out once its opcode has been read. -/
theorem run_instruction_of_decode? {r : Registers} {bus : Bus} {op : Opcode}
    (h : Opcode.decode? (bus.peek r.pc) = some op) : r.instruction.run bus =
      ⟨.ok ((r.execute op).run (bus.afterRead r.pc)).value,
        ((r.execute op).run (bus.afterRead r.pc)).bus,
        .read r.pc (bus.peek r.pc) :: ((r.execute op).run (bus.afterRead r.pc)).journal⟩ := by
  unfold instruction
  rw [Activity.run_bind, Activity.run_readByte]
  dsimp only
  rw [h]
  dsimp only
  rw [Activity.run_bind, Activity.run_pure, List.append_nil]
  rfl

/-! ### What an instruction takes in -/

/-- The value of an operand at a place. -/
def valueAt (r : Registers) (bus : Bus) : Place → UInt8
  | .nowhere => 0
  | .accumulator => r.a
  | .literal value => value
  | .memory address => bus.peek address

theorem run_fetch (r : Registers) (l : Location) (bus : Bus) :
    ((r.fetch l.place).run bus).value = r.valueAt bus l.place ∧
      Entry.acts ((r.fetch l.place).run bus).journal = BusAct.reads l.address?.toList := by
  rcases l with ⟨place, crossed⟩
  cases place <;> exact ⟨rfl, rfl⟩

/-- The operand of an instruction; on the bus the opcode has been read. -/
def operandOf (r : Registers) (op : Opcode) (bus : Bus) : UInt8 :=
  r.valueAt (bus.after (BusAct.reads (r.wayTo op.mode bus)))
    ((r.approach op.mode bus).place r op.mode)

/-- The byte on top of the stack, for an instruction that takes it off; on the bus the opcode has
been read. -/
def topOf (r : Registers) (op : Opcode) (bus : Bus) : UInt8 :=
  (bus.after (BusAct.reads (r.wayTo op.mode bus))).peek (stackAddress (r.sp + 1))

end Registers

end Nmos6502
