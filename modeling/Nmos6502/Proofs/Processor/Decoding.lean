import Nmos6502.Proofs.Assembly.OperandForms
import Nmos6502.Proofs.Bus.Memory
import Nmos6502.Proofs.Processor.Cost

/-!
# Carrying out a decoded instruction

The processor reads an instruction byte by byte while it carries it out. If the bytes are in memory,
that comes to the same as decoding them first and then carrying out what was decoded, with the operand
bytes at hand (`Decoded.carryOut`, `Registers.run_instruction_of_holds`).

Where the program goes on then can be told from what was decoded: behind the instruction unless it is
a jump or a branch that is taken (`Decoded.pc_of_goesOn`), at the target of a branch
(`Decoded.target?_of_isTaken`), and at the operand of an absolute jump or call
(`Decoded.littleEndian_of_jump`).
-/

namespace Nmos6502

namespace Registers

/-! ### Operands at hand -/

/-- The place of an operand whose bytes are at hand. -/
def locateAt (r : Registers) (mode : AddressingMode) (operand : List UInt8) : Activity Location :=
  let low := operand.getD 0 0
  let base := word low (operand.getD 1 0)
  match mode with
  | .implied => return ⟨.nowhere, false⟩
  | .accumulator => return ⟨.accumulator, false⟩
  | .immediate => return ⟨.literal low, false⟩
  | .zeroPage => return .direct low.toUInt16
  | .zeroPageX => return .direct (low + r.x).toUInt16
  | .zeroPageY => return .direct (low + r.y).toUInt16
  | .relative => return .reached (r.pc + 2) (branchTarget r.pc low)
  | .absolute => return .direct base
  | .absoluteX => return .reached base (base + r.x.toUInt16)
  | .absoluteY => return .reached base (base + r.y.toUInt16)
  | .indirect => do
    return .direct (← pagedWord base)
  | .indirectX => do
    return .direct (← zeroPageWord (low + r.x))
  | .indirectY => do
    let base ← zeroPageWord low
    return .reached base (base + r.y.toUInt16)

/-- To locate an operand is to read its bytes and to go on with these. -/
theorem locate_eq (r : Registers) (mode : AddressingMode) : r.locate mode =
    Activity.readBytes r.operandAddress mode.operandSize >>= r.locateAt mode := by
  cases mode <;> rfl

end Registers

namespace Decoded

/-- A decoded instruction is carried out, with the program counter at it. The result is the registers
and the cost. -/
def carryOut (d : Decoded) (r : Registers) : Activity (Registers × Nat) := do
  let l ← r.locateAt d.opcode.mode d.operand
  let next := { r with pc := r.pc + UInt16.ofNat d.opcode.size }
  let (r', extra) ← next.perform d.opcode.instruction.effect l
  return (r', d.opcode.cycles + Registers.pageCost d.opcode.instruction l + extra)

/-- What is read and reported until a decoded instruction is at hand. -/
def fetched (d : Decoded) (pc : UInt16) : List Entry :=
  .read pc d.opcode.code :: .event (.instructionDecoded pc d.opcode) :: Entry.reads (pc + 1) d.operand

/-- A decoded instruction has a documented opcode and a whole operand, and its bytes come first. -/
theorem of_decode? {bytes : List UInt8} {address : UInt16} {d : Decoded}
    (h : decode? bytes address = some d) : Opcode.decode? d.opcode.code = some d.opcode ∧
      d.operand.length = d.opcode.mode.operandSize ∧ d.bytes <+: bytes ∧ d.address = address := by
  obtain ⟨hbytes, haddress⟩ := bytes_append_of_decode? h
  have hprefix : d.bytes <+: bytes := ⟨_, hbytes.symm⟩
  unfold decode? at h
  split at h
  · cases h
  · split at h
    · cases h
    · next op hop =>
      obtain ⟨hlength, hd⟩ := Option.ite_none_right_eq_some.mp h
      cases hd
      rw [Opcode.code_of_decode? hop]
      exact ⟨hop, hlength, hprefix, haddress⟩

end Decoded

namespace Registers

theorem run_instruction_of_decode?_eq_none {r : Registers} {bus : Bus}
    (h : Opcode.decode? (bus.peek r.pc) = none) : r.instruction.run bus =
      ⟨.error ⟨r.pc, bus.peek r.pc⟩, bus.afterRead r.pc,
        [.read r.pc (bus.peek r.pc), .event (.illegalOpcode r.pc (bus.peek r.pc))]⟩ := by
  unfold instruction
  rw [Activity.run_bind, Activity.run_readByte]
  dsimp only
  rw [h]
  rfl

theorem exists_run_instruction_of_decode? {r : Registers} {bus : Bus} {op : Opcode}
    (h : Opcode.decode? (bus.peek r.pc) = some op) :
    ∃ result, (r.instruction.run bus).value = .ok result := by
  unfold instruction
  rw [Activity.run_bind, Activity.run_readByte]
  dsimp only
  rw [h]
  exact ⟨((r.execute op).run (bus.afterRead r.pc)).value, by rw [Activity.run_bind]; rfl⟩

/-- **An instruction in memory** is carried out as it is decoded. -/
theorem run_instruction_of_holds {r : Registers} {bus : Bus} {d : Decoded}
    (hop : Opcode.decode? d.opcode.code = some d.opcode)
    (hlength : d.operand.length = d.opcode.mode.operandSize) (h : bus.Holds r.pc d.bytes) :
    r.instruction.run bus =
      ⟨.ok ((d.carryOut r).run bus).value, ((d.carryOut r).run bus).bus,
        d.fetched r.pc ++ ((d.carryOut r).run bus).journal⟩ := by
  obtain ⟨⟨hmemory, hcode⟩, hrest⟩ := Placed.of_cons h
  have hoperand := Bus.Holds.run_readBytes hrest
  rw [hlength] at hoperand
  have hlocate : ∀ bus' : Bus, (Activity.readBytes r.operandAddress d.opcode.mode.operandSize).run
      bus' = ⟨d.operand, bus', Entry.reads (r.pc + 1) d.operand⟩ →
      (r.execute d.opcode).run bus' =
        { (d.carryOut r).run bus' with
          journal := .event (.instructionDecoded r.pc d.opcode) ::
            (Entry.reads (r.pc + 1) d.operand ++ ((d.carryOut r).run bus').journal) } := by
    intro bus' hread
    unfold execute Decoded.carryOut
    rw [locate_eq]
    simp only [Activity.run_bind, Activity.run_report, hread, List.append_assoc]
    rfl
  unfold instruction
  rw [Activity.run_bind, Activity.run_readByte, hcode, hmemory.afterRead]
  dsimp only
  rw [hop]
  dsimp only
  rw [Activity.run_bind, hlocate bus hoperand]
  simp only [Activity.run_pure, List.append_nil]
  rfl

end Registers

/-! ### Where the program goes on -/

namespace Effect

/-- What an effect makes of the registers leaves the program counter alone. -/
def KeepsPc : Effect → Prop
  | read result | pull result => ∀ m r, (result m r).pc = r.pc
  | modify result => ∀ m r, (result m r).2.pc = r.pc
  | internal result => ∀ r, (result r).pc = r.pc
  | write _ | branch _ | push _ | jump | call | returnFromCall | returnFromInterrupt
  | softwareBreak => True

/-- The program goes on behind the instruction. -/
def goesOn (f : Flags) : Effect → Bool
  | branch taken => !taken f
  | jump | call | returnFromCall | returnFromInterrupt | softwareBreak => false
  | read _ | write _ | modify _ | internal _ | push _ | pull _ => true

end Effect

namespace Instruction

/-- The instructions that never go on behind themselves. -/
def isJump : Instruction → Bool
  | jmp | jsr | rts | rti | brk => true
  | _ => false

/-- Whether an instruction is a branch that is taken. -/
def isTaken (i : Instruction) (f : Flags) : Bool :=
  match i.effect with
  | .branch taken => taken f
  | _ => false

theorem keepsPc_effect (i : Instruction) : i.effect.KeepsPc := by
  cases i <;> dsimp only [effect, Effect.KeepsPc] <;> intros <;> rfl

/-- The program goes on behind an instruction that is no jump and no branch that is taken. -/
theorem goesOn_effect (i : Instruction) (f : Flags) :
    i.effect.goesOn f = (!i.isJump && !i.isTaken f) := by
  cases i <;> rfl

theorem effect_of_isTaken {i : Instruction} {f : Flags} (h : i.isTaken f = true) :
    ∃ taken, i.effect = .branch taken ∧ taken f = true := by
  unfold isTaken at h
  split at h
  · next taken he => exact ⟨taken, he, h⟩
  · cases h

theorem isTaken_of_not_isBranch {i : Instruction} (h : i.isBranch = false) (f : Flags) :
    i.isTaken f = false := by
  cases i <;> cases h <;> rfl

theorem isBranch_of_isTaken {i : Instruction} {f : Flags} (h : i.isTaken f = true) :
    i.isBranch = true := by
  cases hb : i.isBranch with
  | true => rfl
  | false =>
    rw [isTaken_of_not_isBranch hb f] at h
    cases h

theorem mode_of_jsr {op : Opcode} (h : op ∈ Opcode.table) (hi : op.instruction = .jsr) :
    op.mode = .absolute := by
  have hall : ∀ op ∈ Opcode.table, op.instruction = .jsr → op.mode = .absolute := by
    decide +kernel
  exact hall op h hi

end Instruction

namespace Registers

variable {r : Registers} {l : Location}

theorem yields_store (r : Registers) (value : UInt8) (place : Place) :
    (r.store value place).Yields fun r' => r'.pc = r.pc ∧ r'.flags = r.flags := by
  cases place <;> exact ⟨rfl, rfl⟩

/-- After an effect that goes on, the program counter is behind the instruction. -/
theorem yields_perform_of_goesOn (r : Registers) {effect : Effect} (hk : effect.KeepsPc)
    (hg : effect.goesOn r.flags = true) : (r.perform effect l).Yields fun p => p.1.pc = r.pc := by
  cases effect with
  | read result => exact Activity.yields_bind _ fun m => hk m r
  | write value =>
    exact (yields_store r (value r) l.place).bind fun r' hr' => hr'.1
  | modify result =>
    refine Activity.yields_bind _ fun m => ?_
    exact (yields_store (result m r).2 (result m r).1 l.place).bind fun r' hr' =>
      hr'.1.trans (hk m r)
  | internal result => exact hk r
  | branch taken =>
    have hnot : taken r.flags = false := by simpa [Effect.goesOn] using hg
    unfold perform
    cases l.address? with
    | none => rfl
    | some target =>
      dsimp only
      rw [hnot]
      rfl
  | push value => rfl
  | pull result => exact fun m => hk m _
  | jump => cases hg
  | call => cases hg
  | returnFromCall => cases hg
  | returnFromInterrupt => cases hg
  | softwareBreak => cases hg

theorem yields_perform_branch {taken : Flags → Bool} {target : UInt16}
    (hl : l.address? = some target) (ht : taken r.flags = true) :
    (r.perform (.branch taken) l).Yields fun p => p.1.pc = target := by
  unfold perform
  dsimp only
  rw [hl]
  dsimp only
  rw [ht]
  rfl

theorem yields_perform_jump {target : UInt16} (hl : l.address? = some target) :
    (r.perform .jump l).Yields fun p => p.1.pc = target := by
  unfold perform
  dsimp only
  rw [hl]
  rfl

theorem yields_perform_call {target : UInt16} (hl : l.address? = some target) :
    (r.perform .call l).Yields fun p => p.1.pc = target := by
  unfold perform
  dsimp only
  rw [hl]
  exact Activity.yields_bind _ fun _ => rfl

end Registers

namespace Decoded

variable {d : Decoded} {r : Registers}

/-- Where the program goes on can be told from where the operand may be. -/
theorem pc_carryOut {Q : Location → Prop} {target : UInt16}
    (hl : (r.locateAt d.opcode.mode d.operand).Yields Q)
    (hp : ∀ l, Q l → (Registers.perform { r with pc := r.pc + UInt16.ofNat d.opcode.size }
      d.opcode.instruction.effect l).Yields fun p => p.1.pc = target) (bus : Bus) :
    ((d.carryOut r).run bus).value.1.pc = target := by
  have hyields : (d.carryOut r).Yields fun p => p.1.pc = target :=
    hl.bind fun l hq => (hp l hq).bind fun _ h => h
  exact hyields.value bus

/-- **Behind the instruction** the program goes on after all but jumps and branches that are taken. -/
theorem pc_of_goesOn (hj : d.opcode.instruction.isJump = false)
    (ht : d.opcode.instruction.isTaken r.flags = false) (bus : Bus) :
    ((d.carryOut r).run bus).value.1.pc = r.pc + UInt16.ofNat d.opcode.size := by
  have hgoes : d.opcode.instruction.effect.goesOn r.flags = true := by
    rw [d.opcode.instruction.goesOn_effect, hj, ht]
    rfl
  refine pc_carryOut (Activity.yields_true _) (fun l _ => ?_) bus
  exact Registers.yields_perform_of_goesOn { r with pc := r.pc + UInt16.ofNat d.opcode.size }
    d.opcode.instruction.keepsPc_effect hgoes

/-- **A branch that is taken** goes on at its target. -/
theorem target?_of_isTaken (hop : d.opcode ∈ Opcode.table)
    (hlength : d.operand.length = d.opcode.mode.operandSize) (haddress : d.address = r.pc)
    (ht : d.opcode.instruction.isTaken r.flags = true) (bus : Bus) :
    d.target? = some ((d.carryOut r).run bus).value.1.pc := by
  obtain ⟨taken, heffect, htaken⟩ := Instruction.effect_of_isTaken ht
  have hmode : d.opcode.mode = .relative :=
    (Instruction.isBranch_iff_of_mem_table hop).mp (Instruction.isBranch_of_isTaken ht)
  rw [hmode] at hlength
  obtain ⟨offset, hoffset⟩ := List.length_eq_one_iff.mp hlength
  have hlocate : (r.locateAt d.opcode.mode d.operand).Yields fun l =>
      l.address? = some (branchTarget r.pc offset) := by
    rw [hmode, hoffset]
    rfl
  have hpc : ((d.carryOut r).run bus).value.1.pc = branchTarget r.pc offset := by
    refine pc_carryOut hlocate (fun l hl => ?_) bus
    rw [heffect]
    exact Registers.yields_perform_branch hl htaken
  unfold target?
  rw [if_pos hmode, hoffset, haddress, hpc]
  rfl

/-- **A jump to an absolute address or a call** goes on at its operand. -/
theorem littleEndian_of_jump (hop : d.opcode ∈ Opcode.table)
    (hlength : d.operand.length = d.opcode.mode.operandSize)
    (hj : d.opcode.instruction = .jsr ∨
      d.opcode.instruction = .jmp ∧ d.opcode.mode = .absolute) (bus : Bus) :
    d.operand = littleEndian ((d.carryOut r).run bus).value.1.pc := by
  have hmode : d.opcode.mode = .absolute := by
    rcases hj with hcall | ⟨-, hmode⟩
    · exact Instruction.mode_of_jsr hop hcall
    · exact hmode
  rw [hmode] at hlength
  obtain ⟨low, high, hoperand⟩ := List.length_eq_two.mp hlength
  have hlocate : (r.locateAt d.opcode.mode d.operand).Yields fun l =>
      l.address? = some (word low high) := by
    rw [hmode, hoperand]
    rfl
  have hpc : ((d.carryOut r).run bus).value.1.pc = word low high := by
    refine pc_carryOut hlocate (fun l hl => ?_) bus
    rcases hj with hcall | ⟨hjump, -⟩
    · rw [hcall]
      exact Registers.yields_perform_call hl
    · rw [hjump]
      exact Registers.yields_perform_jump hl
  rw [hpc, hoperand]
  unfold littleEndian
  rw [lowByte_word, highByte_word]

end Decoded

end Nmos6502
