import Nmos6502.Proofs.Processor.Approach

/-!
# Results

The byte that an instruction computes, as a number (`Instruction.result?`), and what its effect
makes of the registers (`Effect.outcome`). The zero and the negative flag tell of that byte
(`Instruction.tellOf_outcome`), and a replaced operand is that byte (`Instruction.modified_eq`),
whether or not it can be stored.
-/

namespace Nmos6502

/-! ### Bytes as numbers -/

/-- A property of all bytes, checked one by one. -/
theorem forall_byte {P : UInt8 → Prop} (h : ∀ n : Fin 256, P (UInt8.ofNat n)) (b : UInt8) :
    P b := by
  have hb := h ⟨b.toNat, b.toNat_lt⟩
  rwa [UInt8.ofNat_toNat] at hb

theorem topBit_iff (value : UInt8) : (value &&& 0x80 != 0) = true ↔ 128 ≤ value :=
  forall_byte (P := fun value => (value &&& 0x80 != 0) = true ↔ 128 ≤ value)
    (by decide +kernel) value

/-- Shifted bytes as numbers. -/
theorem shifted_eq (m : UInt8) (c : Bool) : m <<< 1 = 2 * m ∧ m >>> 1 = m / 2 ∧
    (m <<< 1 ||| if c then 0x01 else 0) = 2 * m + (if c then 1 else 0) ∧
    (m >>> 1 ||| if c then 0x80 else 0) = m / 2 + 128 * (if c then 1 else 0) :=
  forall_byte (P := fun m => ∀ c : Bool, m <<< 1 = 2 * m ∧ m >>> 1 = m / 2 ∧
    (m <<< 1 ||| if c then 0x01 else 0) = 2 * m + (if c then 1 else 0) ∧
    (m >>> 1 ||| if c then 0x80 else 0) = m / 2 + 128 * (if c then 1 else 0))
    (by decide +kernel) m c

theorem complement_eq (m : UInt8) : ~~~m = 255 - m :=
  forall_byte (P := fun m => ~~~m = 255 - m) (by decide +kernel) m

/-! ### What instructions compute -/

/-- The carry as a number. -/
def Flags.carryIn (f : Flags) : UInt8 :=
  if f.carry then 1 else 0

/-- The zero and the negative flag tell of a result. -/
structure Flags.TellOf (f : Flags) (value : UInt8) : Prop where
  zero : f.zero = true ↔ value = 0
  negative : f.negative = true ↔ 128 ≤ value

/-- The byte that an instruction computes from the registers and the byte that it takes in; none if
its flags tell of no such byte. Sums are binary. -/
def Instruction.result? (r : Registers) (m : UInt8) : Instruction → Option UInt8
  | adc => some (r.a + m + r.flags.carryIn)
  | sbc => some (r.a - m - (1 - r.flags.carryIn))
  | and => some (r.a &&& m)
  | ora => some (r.a ||| m)
  | eor => some (r.a ^^^ m)
  | cmp => some (r.a - m)
  | cpx => some (r.x - m)
  | cpy => some (r.y - m)
  | lda | ldx | ldy | pla => some m
  | asl => some (2 * m)
  | lsr => some (m / 2)
  | rol => some (2 * m + r.flags.carryIn)
  | ror => some (m / 2 + 128 * r.flags.carryIn)
  | inc => some (m + 1)
  | dec => some (m - 1)
  | inx => some (r.x + 1)
  | iny => some (r.y + 1)
  | dex => some (r.x - 1)
  | dey => some (r.y - 1)
  | tax | tay => some r.a
  | txa => some r.x
  | tya => some r.y
  | tsx => some r.sp
  | bit | bcc | bcs | beq | bmi | bne | bpl | bvc | bvs | brk | clc | cld | cli | clv | jmp | jsr
  | nop | pha | php | plp | rti | rts | sec | sed | sei | sta | stx | sty | txs => none

/-- Whether the sum of an instruction is one of decimal digits. -/
def Instruction.isDecimal (f : Flags) : Instruction → Bool
  | adc | sbc => f.decimal
  | _ => false

namespace Effect

/-- What an effect that computes makes of the registers, given the byte that it takes in. -/
def outcome (m : UInt8) (r : Registers) : Effect → Registers
  | read result => result m r
  | modify result => (result m r).2
  | internal result => result r
  | pull result => result m { r with sp := r.sp + 1 }
  | write _ | branch _ | push _ | jump | call | returnFromCall | returnFromInterrupt
  | softwareBreak => r

/-- The byte that replaces the operand, if an effect replaces it. -/
def modified? (m : UInt8) (r : Registers) : Effect → Option UInt8
  | modify result => some (result m r).1
  | _ => none

/-- Whether an effect does nothing else. -/
def computes : Effect → Bool
  | read _ | modify _ | internal _ | pull _ => true
  | write _ | branch _ | push _ | jump | call | returnFromCall | returnFromInterrupt
  | softwareBreak => false

/-- The byte that an effect takes in. -/
def intake (r : Registers) (bus : Bus) (place : Place) : Effect → UInt8
  | pull _ => bus.peek (Registers.stackAddress (r.sp + 1))
  | _ => r.valueAt bus place

end Effect

namespace Sum8

theorem value_add (a m : UInt8) (c : Bool) : (add a m c).value = a + m + if c then 1 else 0 := by
  unfold add
  cases c <;> simp [UInt8.ofNat_add]

theorem value_subtract (a m : UInt8) (c : Bool) :
    (subtract a m c).value = a - m - (1 - if c then 1 else 0) := by
  unfold subtract
  rw [value_add, complement_eq]
  cases c <;> grind

end Sum8

namespace Registers

theorem tellOf_withResult (r : Registers) (value : UInt8) :
    (r.withResult value).flags.TellOf value :=
  ⟨beq_iff_eq, topBit_iff value⟩

theorem add_of_binary {r : Registers} (h : r.flags.decimal = false) (m : UInt8) :
    r.add m = r.withSum (Sum8.add r.a m r.flags.carry) := by
  unfold add
  rw [h]
  rfl

theorem subtract_of_binary {r : Registers} (h : r.flags.decimal = false) (m : UInt8) :
    r.subtract m = r.withSum (Sum8.subtract r.a m r.flags.carry) := by
  unfold subtract
  rw [h]
  rfl

theorem tellOf_add {r : Registers} (h : r.flags.decimal = false) (m : UInt8) :
    (r.add m).flags.TellOf (r.a + m + r.flags.carryIn) := by
  rw [add_of_binary h]
  exact Sum8.value_add r.a m r.flags.carry ▸ ⟨beq_iff_eq, topBit_iff _⟩

theorem tellOf_subtract {r : Registers} (h : r.flags.decimal = false) (m : UInt8) :
    (r.subtract m).flags.TellOf (r.a - m - (1 - r.flags.carryIn)) := by
  rw [subtract_of_binary h]
  exact Sum8.value_subtract r.a m r.flags.carry ▸ ⟨beq_iff_eq, topBit_iff _⟩

theorem tellOf_compareWith (register : Registers → UInt8) (m : UInt8) (r : Registers) :
    (compareWith register m r).flags.TellOf (register r - m) :=
  ⟨beq_iff_eq, topBit_iff _⟩

theorem tellOf_shift (result : UInt8 → Bool → UInt8) (out : UInt8 → Bool) (m : UInt8)
    (r : Registers) : (shift result out m r).2.flags.TellOf (result m r.flags.carry) :=
  ⟨beq_iff_eq, topBit_iff _⟩

end Registers

namespace Instruction

variable {r : Registers} {m v : UInt8}

/-- **The flags tell of the result**, but for sums of decimal digits. -/
theorem tellOf_outcome {i : Instruction} (h : i.result? r m = some v)
    (hd : i.isDecimal r.flags = false) : (i.effect.outcome m r).flags.TellOf v := by
  obtain ⟨hasl, hlsr, hrol, hror⟩ := shifted_eq m r.flags.carry
  cases i with
  | adc => cases h; exact Registers.tellOf_add hd m
  | sbc => cases h; exact Registers.tellOf_subtract hd m
  | asl => cases h; exact hasl ▸ Registers.tellOf_shift _ _ m r
  | lsr => cases h; exact hlsr ▸ Registers.tellOf_shift _ _ m r
  | rol => cases h; exact hrol ▸ Registers.tellOf_shift _ _ m r
  | ror => cases h; exact hror ▸ Registers.tellOf_shift _ _ m r
  | cmp | cpx | cpy => cases h; exact Registers.tellOf_compareWith _ m r
  | _ => cases h <;> exact Registers.tellOf_withResult _ _

/-- What an instruction computes does not depend on where it stands. -/
theorem result?_withPc (i : Instruction) (r : Registers) (pc : UInt16) (m : UInt8) :
    i.result? { r with pc } m = i.result? r m := by
  cases i <;> rfl

theorem computes_of_result? {i : Instruction} (h : i.result? r m = some v) :
    i.effect.computes = true := by
  cases i <;> first | rfl | cases h

/-- **A replaced operand** is the result. -/
theorem modified_eq {i : Instruction} (h : i.effect.modified? m r = some v) :
    i.result? r m = some v := by
  obtain ⟨hasl, hlsr, hrol, hror⟩ := shifted_eq m r.flags.carry
  cases i with
  | asl => cases h; exact congrArg some hasl.symm
  | lsr => cases h; exact congrArg some hlsr.symm
  | rol => cases h; exact congrArg some hrol.symm
  | ror => cases h; exact congrArg some hror.symm
  | _ => cases h <;> rfl

end Instruction

/-! ### Results in the registers -/

namespace Registers

/-- The registers once a byte, if there is one, has been put in a place. -/
def stored (r : Registers) (value? : Option UInt8) (place : Place) : Registers :=
  if place = .accumulator then { r with a := value?.getD r.a } else r

theorem flags_stored (r : Registers) (value? : Option UInt8) (place : Place) :
    (r.stored value? place).flags = r.flags := by
  unfold stored
  split <;> rfl

theorem value_store (r : Registers) (value : UInt8) (place : Place) (bus : Bus) :
    ((r.store value place).run bus).value = r.stored (some value) place := by
  cases place <;> rfl

theorem stored_none (r : Registers) (place : Place) : r.stored none place = r := by
  unfold stored
  split <;> rfl

/-- **What a computation makes of the registers**: the outcome, and a replaced accumulator. -/
theorem value_perform (r : Registers) {effect : Effect} (h : effect.computes = true) (l : Location)
    (bus : Bus) : ((r.perform effect l).run bus).value.1 =
      (effect.outcome (effect.intake r bus l.place) r).stored
        (effect.modified? (effect.intake r bus l.place) r) l.place := by
  have hvalue := (r.run_fetch l bus).1
  cases effect with
  | read result =>
    unfold perform
    rw [Activity.run_bind, hvalue]
    exact (stored_none _ _).symm
  | modify result =>
    unfold perform
    rw [Activity.run_bind, hvalue, Activity.run_bind]
    exact value_store _ _ _ _
  | internal result => exact (stored_none _ _).symm
  | pull result => exact (stored_none _ _).symm
  | _ => cases h

/-- The byte that an instruction takes in, from the stack or from where its operand is; on the bus
the opcode has been read. -/
def intakeOf (r : Registers) (op : Opcode) (bus : Bus) : UInt8 :=
  if op.instruction = .pla ∨ op.instruction = .plp then r.topOf op bus else r.operandOf op bus

theorem intake_effect (r : Registers) (op : Opcode) (bus : Bus) (pc : UInt16) :
    op.instruction.effect.intake { r with pc } (bus.after (BusAct.reads (r.wayTo op.mode bus)))
      ((r.approach op.mode bus).place r op.mode) = r.intakeOf op bus := by
  have hvalue : ∀ bus place, valueAt { r with pc } bus place = r.valueAt bus place := by
    intro bus place
    cases place <;> rfl
  unfold intakeOf
  cases op.instruction with
  | pla | plp => rfl
  | _ => exact hvalue _ _

/-- An instruction that computes makes of the registers what its result says. -/
theorem value_performed {r : Registers} {op : Opcode} (h : op.instruction.effect.computes = true)
    (bus : Bus) : let next := { r with pc := r.pc + UInt16.ofNat op.size }
    (r.performed op bus).value.1 =
      (op.instruction.effect.outcome (r.intakeOf op bus) next).stored
        (op.instruction.effect.modified? (r.intakeOf op bus) next)
        ((r.approach op.mode bus).place r op.mode) := by
  intro next
  rw [← r.intake_effect op bus next.pc]
  exact value_perform next h _ _

end Registers

end Nmos6502
