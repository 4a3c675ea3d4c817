import Nmos6502.Proofs.Processor.Results

/-!
# What an instruction leaves alone

An instruction changes no register and no flag but those that it defines (`Opcode.Defines`): what its
effect makes of the registers keeps the others (`Instruction.keeps_effect`), and the way in which the
effect is performed does so too (`Registers.agree_perform`). The program goes on behind the
instruction unless it jumps (`Registers.pc_performed`). A result is in the register that the
instruction defines, and the flags tell of it (`Registers.shows_performed`).
-/

namespace Nmos6502

/-! ### Parts of the registers -/

/-- A register or a flag, apart from the program counter. -/
inductive Part
  | a | x | y | sp
  | carry | overflow | decimal | interruptDisable | zero | negative
  deriving DecidableEq, Repr

namespace Part

/-- A part is the same in two states of the registers. -/
def Agree (r r' : Registers) : Part → Prop
  | a => r'.a = r.a
  | x => r'.x = r.x
  | y => r'.y = r.y
  | sp => r'.sp = r.sp
  | carry => r'.flags.carry = r.flags.carry
  | overflow => r'.flags.overflow = r.flags.overflow
  | decimal => r'.flags.decimal = r.flags.decimal
  | interruptDisable => r'.flags.interruptDisable = r.flags.interruptDisable
  | zero => r'.flags.zero = r.flags.zero
  | negative => r'.flags.negative = r.flags.negative

/-- The instructions that define a part, wherever their operand is. -/
def definers : Part → List Instruction
  | a => [.adc, .sbc, .and, .ora, .eor, .lda, .txa, .tya, .pla]
  | x => [.ldx, .tax, .tsx, .inx, .dex]
  | y => [.ldy, .tay, .iny, .dey]
  | sp => [.txs, .pha, .php, .pla, .plp, .jsr, .rts, .rti, .brk]
  | carry => [.adc, .sbc, .cmp, .cpx, .cpy, .asl, .lsr, .rol, .ror, .clc, .sec, .plp, .rti]
  | overflow => [.adc, .sbc, .bit, .clv, .plp, .rti]
  | decimal => [.cld, .sed, .plp, .rti]
  | interruptDisable => [.cli, .sei, .plp, .rti, .brk]
  | zero | negative =>
    [.adc, .sbc, .and, .ora, .eor, .bit, .cmp, .cpx, .cpy, .asl, .lsr, .rol, .ror, .lda, .ldx, .ldy,
      .inc, .dec, .inx, .iny, .dex, .dey, .pla, .tax, .tay, .txa, .tya, .tsx, .plp, .rti]

theorem agree_refl (part : Part) (r : Registers) : part.Agree r r := by
  cases part <;> rfl

theorem agree_withPc (part : Part) (r : Registers) (pc : UInt16) : part.Agree r { r with pc } := by
  cases part <;> rfl

theorem Agree.trans {part : Part} {r₁ r₂ r₃ : Registers} (h : part.Agree r₁ r₂)
    (h' : part.Agree r₂ r₃) : part.Agree r₁ r₃ := by
  cases part <;> exact Eq.trans h' h

theorem agree_withSp {part : Part} (h : part ≠ sp) (r : Registers) (value : UInt8) :
    part.Agree r { r with sp := value } := by
  cases part with
  | sp => exact absurd rfl h
  | _ => rfl

theorem agree_withA {part : Part} (h : part ≠ a) (r : Registers) (value : UInt8) :
    part.Agree r { r with a := value } := by
  cases part with
  | a => exact absurd rfl h
  | _ => rfl

end Part

/-- What an effect makes of the registers leaves a part alone. -/
def Effect.Keeps (part : Part) : Effect → Prop
  | read result => ∀ m r, part.Agree r (result m r)
  | modify result => ∀ m r, part.Agree r (result m r).2
  | internal result => ∀ r, part.Agree r (result r)
  | pull result => part ≠ .sp ∧ ∀ m r, part.Agree r (result m r)
  | push _ | call | returnFromCall => part ≠ .sp
  | returnFromInterrupt => part = .a ∨ part = .x ∨ part = .y
  | softwareBreak => part ≠ .sp ∧ part ≠ .interruptDisable
  | write _ | branch _ | jump => True

open Registers in
/-- What an instruction does not define is kept by its effect. -/
theorem Instruction.keeps_effect {part : Part} {i : Instruction} (h : i ∉ part.definers) :
    i.effect.Keeps part := by
  have hc : part.definers.contains i = false := by simpa using h
  -- Each part is looked at with each of the instructions that do not define it.
  cases part <;> cases i <;> cases hc <;>
    simp [effect, Effect.Keeps, Part.Agree, withResult, withA, withX, withY, withFlags, withSum,
      add, subtract, compareWith, bitTest, shift, replace, Flags.ofResult]

namespace Registers

variable {part : Part} {l : Location}

theorem agree_store (r : Registers) (value : UInt8) (hl : part = .a → l.place ≠ .accumulator) :
    (r.store value l.place).Yields fun r' => part.Agree r r' := by
  cases hp : l.place with
  | accumulator => exact Part.agree_withA (fun ha => hl ha hp) r value
  | _ => exact Part.agree_refl part r

/-- **An effect leaves a part alone** if it keeps it, unless it replaces the accumulator. -/
theorem agree_perform (r : Registers) {effect : Effect} (hk : effect.Keeps part)
    (hl : part = .a → l.place ≠ .accumulator) :
    (r.perform effect l).Yields fun p => part.Agree r p.1 := by
  cases effect with
  | read result => exact Activity.yields_bind _ fun m => hk m r
  | write value => exact (agree_store r (value r) hl).bind fun r' hr' => hr'
  | modify result =>
    refine Activity.yields_bind _ fun m => ?_
    exact (agree_store (result m r).2 (result m r).1 hl).bind fun r' hr' => (hk m r).trans hr'
  | internal result => exact hk r
  | branch taken =>
    unfold perform
    cases l.address? with
    | none => exact Part.agree_refl part r
    | some target =>
      dsimp only
      split
      · exact Part.agree_withPc part r target
      · exact Part.agree_refl part r
  | push value => exact Part.agree_withSp hk r _
  | pull result =>
    exact fun m => (Part.agree_withSp hk.1 r _).trans (hk.2 m _)
  | jump =>
    unfold perform
    cases l.address? with
    | none => exact Part.agree_refl part r
    | some target => exact Part.agree_withPc part r target
  | call =>
    unfold perform
    cases l.address? with
    | none => exact Part.agree_refl part r
    | some target =>
      exact (Part.agree_withSp hk r _).trans (Part.agree_withPc part _ target)
  | returnFromCall =>
    exact fun low high => (Part.agree_withSp hk r _).trans (Part.agree_withPc part _ _)
  | returnFromInterrupt =>
    rcases hk with rfl | rfl | rfl
    all_goals exact fun status low high => rfl
  | softwareBreak =>
    obtain ⟨hsp, hmask⟩ := hk
    cases part with
    | sp => exact absurd rfl hsp
    | interruptDisable => exact absurd rfl hmask
    | _ => exact fun low high => rfl

end Registers

/-! ### What an instruction defines -/

/-- The instruction of an opcode defines a part: wherever its operand is, or as a shift of the
accumulator. -/
def Opcode.Defines (op : Opcode) (part : Part) : Prop :=
  op.instruction ∈ part.definers ∨
    part = .a ∧ op.instruction ∈ Instruction.shifts ∧ op.mode = .accumulator

instance (op : Opcode) (part : Part) : Decidable (op.Defines part) :=
  inferInstanceAs (Decidable (_ ∨ _))

theorem Approach.place_eq_accumulator {w : Approach} {r : Registers} {mode : AddressingMode} :
    w.place r mode = .accumulator ↔ mode = .accumulator := by
  cases mode with
  | accumulator => exact ⟨fun _ => rfl, fun _ => rfl⟩
  | _ => exact ⟨nofun, nofun⟩

/-- The result of an instruction is where it belongs: the zero and the negative flag tell of it, and
the register that the instruction defines holds it. -/
structure Opcode.Shows (op : Opcode) (value : UInt8) (r : Registers) : Prop where
  tell : r.flags.TellOf value
  a : op.Defines .a → r.a = value
  x : op.Defines .x → r.x = value
  y : op.Defines .y → r.y = value

namespace Instruction

variable {i : Instruction} {r : Registers} {m v : UInt8}

/-- The outcome holds the result in the register that the instruction defines. -/
theorem register_outcome (h : i.result? r m = some v) (hd : i.isDecimal r.flags = false) :
    (i ∈ Part.a.definers → (i.effect.outcome m r).a = v) ∧
      (i ∈ Part.x.definers → (i.effect.outcome m r).x = v) ∧
      (i ∈ Part.y.definers → (i.effect.outcome m r).y = v) := by
  cases i with
  | adc =>
    cases h
    refine ⟨fun _ => ?_, fun hx => absurd hx (by decide), fun hy => absurd hy (by decide)⟩
    exact (congrArg Registers.a (Registers.add_of_binary hd m)).trans (Sum8.value_add _ _ _)
  | sbc =>
    cases h
    refine ⟨fun _ => ?_, fun hx => absurd hx (by decide), fun hy => absurd hy (by decide)⟩
    exact (congrArg Registers.a (Registers.subtract_of_binary hd m)).trans
      (Sum8.value_subtract _ _ _)
  | _ =>
    cases h <;> simp [Part.definers, effect, Effect.outcome, Registers.withA, Registers.withX,
      Registers.withY, Registers.withResult]

/-- An instruction that sets the zero flag has a result, but for three. -/
theorem exists_result? (h : i ∈ Part.zero.definers) (hn : i ∉ [bit, plp, rti]) (r : Registers)
    (m : UInt8) : ∃ v, i.result? r m = some v := by
  have hall : ∀ i ∈ Part.zero.definers, i ∉ [bit, plp, rti] → (i.result? r m).isSome = true := by
    simp [Part.definers, result?]
  exact Option.isSome_iff_exists.mp (hall i h hn)

/-- An instruction that defines the accumulator wherever its operand is replaces no operand. -/
theorem modified?_of_mem (h : i ∈ Part.a.definers) : i.effect.modified? m r = none := by
  have hall : ∀ i ∈ Part.a.definers, i.effect.modified? m r = none := by
    simp [Part.definers, effect, Effect.modified?]
  exact hall i h

/-- A shift replaces its operand by the result. -/
theorem modified?_of_mem_shifts (h : i ∈ shifts) (hr : i.result? r m = some v) :
    i.effect.modified? m r = some v := by
  have hall : ∀ i ∈ shifts, ∃ v', i.effect.modified? m r = some v' := by
    simp [shifts, effect, Effect.modified?]
  obtain ⟨v', hm⟩ := hall i h
  rw [hm, ← modified_eq hm, hr]

end Instruction

namespace Registers

theorem x_stored (r : Registers) (value? : Option UInt8) (place : Place) :
    (r.stored value? place).x = r.x := by
  unfold stored
  split <;> rfl

theorem y_stored (r : Registers) (value? : Option UInt8) (place : Place) :
    (r.stored value? place).y = r.y := by
  unfold stored
  split <;> rfl

variable {r : Registers} {op : Opcode} {part : Part}

/-- **What an instruction does not define** stays as it is. -/
theorem agree_performed (h : op ∈ Opcode.table) (hp : ¬ op.Defines part) (bus : Bus) :
    part.Agree r (r.performed op bus).value.1 := by
  have hk : op.instruction.effect.Keeps part :=
    Instruction.keeps_effect fun hmem => hp (Or.inl hmem)
  have hl : part = .a → (r.approach op.mode bus).place r op.mode ≠ .accumulator := by
    intro ha hplace
    have hmode := Approach.place_eq_accumulator.mp hplace
    exact hp (Or.inr ⟨ha, (Instruction.mem_shifts_of_mem_table h).1 hmode, hmode⟩)
  exact (Part.agree_withPc part r _).trans ((agree_perform _ hk hl).value _)

/-- **The program goes on behind the instruction** after all but jumps and taken branches. -/
theorem pc_performed (hj : op.instruction.isJump = false)
    (ht : op.instruction.isTaken r.flags = false) (bus : Bus) :
    (r.performed op bus).value.1.pc = r.pc + UInt16.ofNat op.size := by
  have hgoes : op.instruction.effect.goesOn r.flags = true := by
    rw [op.instruction.goesOn_effect, hj, ht]
    rfl
  exact (yields_perform_of_goesOn { r with pc := r.pc + UInt16.ofNat op.size }
    op.instruction.keepsPc_effect hgoes).value _

/-- **The result** of an instruction is where it belongs. -/
theorem shows_performed {v : UInt8} {bus : Bus}
    (h : op.instruction.result? r (r.intakeOf op bus) = some v)
    (hd : op.instruction.isDecimal r.flags = false) : op.Shows v (r.performed op bus).value.1 := by
  have hnext := (op.instruction.result?_withPc r (r.pc + UInt16.ofNat op.size)
    (r.intakeOf op bus)).trans h
  obtain ⟨ha, hx, hy⟩ := Instruction.register_outcome hnext hd
  rw [value_performed (Instruction.computes_of_result? h) bus]
  refine ⟨?_, ?_, ?_, ?_⟩
  · rw [flags_stored]
    exact Instruction.tellOf_outcome hnext hd
  · rintro (hmem | ⟨-, hshift, hmode⟩)
    · rw [Instruction.modified?_of_mem hmem, stored_none]
      exact ha hmem
    · rw [Instruction.modified?_of_mem_shifts hshift hnext]
      unfold stored
      rw [if_pos (Approach.place_eq_accumulator.mpr hmode)]
      rfl
  · rintro (hmem | ⟨hpart, -⟩)
    · exact (x_stored _ _ _).trans (hx hmem)
    · cases hpart
  · rintro (hmem | ⟨hpart, -⟩)
    · exact (y_stored _ _ _).trans (hy hmem)
    · cases hpart

end Registers

end Nmos6502
