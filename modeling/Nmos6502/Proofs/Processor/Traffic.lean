import Nmos6502.Proofs.Processor.Results

/-!
# The traffic of an instruction

All that an instruction does on the bus (`Registers.traffic`): it reads its opcode and goes the way
to its operand; it reads the operand if it takes that in, writes there if it stores a byte, puts
bytes onto the stack or takes them off it, and a `BRK` reads the vector at the end. There is
nothing else (`Registers.acts_instruction`). What each instruction reads and writes is said in
terms of its mnemonic (`Instruction.traffic`); the lemma for the twelve effects is
`Registers.acts_perform`.
-/

namespace Nmos6502

/-! ### Acts in a row -/

deriving instance DecidableEq for BusAct

namespace BusAct

/-- A write of a byte, if there is an address and a byte. -/
def writes (address? : Option UInt16) (value? : Option UInt8) : List BusAct :=
  match value? with
  | some value => address?.toList.map (.write · value)
  | none => []

/-- Bytes go onto the stack, which grows downward and wraps around in its page. -/
def pushes (sp : UInt8) : List UInt8 → List BusAct
  | [] => []
  | value :: rest => .write (Registers.stackAddress sp) value :: pushes (sp - 1) rest

/-- Bytes come off the stack. -/
def pulls (sp : UInt8) : Nat → List BusAct
  | 0 => []
  | n + 1 => .read (Registers.stackAddress (sp + 1)) :: pulls (sp + 1) n

end BusAct

/-! ### What instructions read and write -/

namespace Instruction

/-- Whether an instruction takes in its operand. -/
def takesOperand : Instruction → Bool
  | adc | sbc | and | ora | eor | bit | cmp | cpx | cpy | lda | ldx | ldy | inc | dec | asl | lsr
  | rol | ror => true
  | _ => false

/-- The byte that an instruction puts in the place of its operand, given the operand. -/
def stored? (r : Registers) (m : UInt8) (i : Instruction) : Option UInt8 :=
  match i with
  | sta => some r.a
  | stx => some r.x
  | sty => some r.y
  | inc | dec | asl | lsr | rol | ror => i.result? r m
  | _ => none

/-- The bytes that an instruction puts onto the stack. -/
def pushed (r : Registers) : Instruction → List UInt8
  | pha => [r.a]
  | php => [r.flags.toByte ||| Flags.breakBit]
  | jsr => [highByte (r.pc + 2), lowByte (r.pc + 2)]
  | brk => [highByte (r.pc + 2), lowByte (r.pc + 2), r.flags.toByte ||| Flags.breakBit]
  | _ => []

/-- How many bytes an instruction takes off the stack. -/
def pulled : Instruction → Nat
  | pla | plp => 1
  | rts => 2
  | rti => 3
  | _ => 0

/-- The vector whose bytes an instruction reads. -/
def vector? : Instruction → Option UInt16
  | brk => some irqVector
  | _ => none

/-- The traffic of an instruction once it is known whether its operand has an address, and what the
operand is. -/
def traffic (r : Registers) (address? : Option UInt16) (m : UInt8) (i : Instruction) :
    List BusAct :=
  (if i.takesOperand then BusAct.reads address?.toList else []) ++
    BusAct.writes address? (i.stored? r m) ++ BusAct.pushes r.sp (i.pushed r) ++
    BusAct.pulls r.sp i.pulled ++
    BusAct.reads (i.vector?.elim [] fun vector => [vector, vector + 1])

end Instruction

namespace Registers

/-- The traffic of the instruction at the program counter. -/
def traffic (r : Registers) (op : Opcode) (bus : Bus) : List BusAct :=
  let found := bus.afterRead r.pc
  BusAct.reads (r.pc :: r.wayTo op.mode found) ++
    op.instruction.traffic r ((r.approach op.mode found).address? r op.mode) (r.operandOf op found)

end Registers

/-! ### What effects read and write -/

/-- The traffic of an effect, with the program counter behind the instruction. -/
def Effect.traffic (r : Registers) (address? : Option UInt16) (m : UInt8) : Effect → List BusAct
  | read _ => BusAct.reads address?.toList
  | write value => BusAct.writes address? (some (value r))
  | modify result => BusAct.reads address?.toList ++ BusAct.writes address? (some (result m r).1)
  | internal _ | branch _ | jump => []
  | push value => BusAct.pushes r.sp [value r]
  | pull _ => BusAct.pulls r.sp 1
  | call => BusAct.pushes r.sp [highByte (r.pc - 1), lowByte (r.pc - 1)]
  | returnFromCall => BusAct.pulls r.sp 2
  | returnFromInterrupt => BusAct.pulls r.sp 3
  | softwareBreak =>
    BusAct.pushes r.sp
        [highByte (r.pc + 1), lowByte (r.pc + 1), r.flags.toByte ||| Flags.breakBit] ++
      BusAct.reads [irqVector, irqVector + 1]

theorem Activity.acts_bind {α β : Type} (activity : Activity α) (f : α → Activity β) (bus : Bus) :
    Entry.acts ((activity >>= f).run bus).journal = Entry.acts (activity.run bus).journal ++
      Entry.acts ((f (activity.run bus).value).run (activity.run bus).bus).journal := by
  rw [run_bind, Entry.acts_append]

theorem Activity.acts_writeByte (address : UInt16) (value : UInt8) (bus : Bus) :
    Entry.acts ((writeByte address value).run bus).journal = [.write address value] := by
  rw [run_writeByte]
  exact congrArg (BusAct.write address value :: ·) (Entry.acts_events _)

namespace Registers

theorem acts_store (r : Registers) (value : UInt8) (l : Location) (bus : Bus) :
    Entry.acts ((r.store value l.place).run bus).journal =
      BusAct.writes l.address? (some value) := by
  rcases l with ⟨place, crossed⟩
  cases place with
  | memory address =>
    unfold store
    rw [Activity.acts_bind, Activity.acts_writeByte]
    rfl
  | _ => rfl

theorem acts_push (r : Registers) (value : UInt8) (bus : Bus) :
    Entry.acts ((r.push value).run bus).journal = BusAct.pushes r.sp [value] := by
  unfold push
  rw [Activity.acts_bind, Activity.acts_writeByte]
  rfl

theorem acts_pushWord (r : Registers) (value : UInt16) (bus : Bus) :
    Entry.acts ((r.pushWord value).run bus).journal =
      BusAct.pushes r.sp [highByte value, lowByte value] := by
  unfold pushWord
  rw [Activity.acts_bind, acts_push, acts_push]
  rfl

theorem acts_enter (r : Registers) (vector back : UInt16) (status : UInt8) (bus : Bus) :
    Entry.acts ((r.enter vector back status).run bus).journal =
      BusAct.pushes r.sp [highByte back, lowByte back, status] ++
        BusAct.reads [vector, vector + 1] := by
  unfold enter
  rw [Activity.acts_bind, acts_pushWord, Activity.acts_bind, acts_push]
  rfl

/-- **The traffic of an effect** on the operand at a location. -/
theorem acts_perform (r : Registers) (effect : Effect) {l : Location} (bus : Bus)
    (h : effect = .call → l.address? ≠ none) :
    Entry.acts ((r.perform effect l).run bus).journal =
      effect.traffic r l.address? (r.valueAt bus l.place) := by
  obtain ⟨hvalue, hfetch⟩ := r.run_fetch l bus
  cases effect with
  | read result =>
    unfold perform
    rw [Activity.acts_bind, hfetch]
    exact List.append_nil _
  | write value =>
    unfold perform
    rw [Activity.acts_bind, acts_store]
    exact List.append_nil _
  | modify result =>
    unfold perform
    rw [Activity.acts_bind, hfetch, Activity.acts_bind, acts_store, hvalue]
    exact congrArg _ (List.append_nil _)
  | internal result => rfl
  | branch taken =>
    unfold perform
    cases l.address? <;> rfl
  | push value =>
    unfold perform
    rw [Activity.acts_bind, acts_push]
    rfl
  | pull result => rfl
  | jump =>
    unfold perform
    cases l.address? <;> rfl
  | call =>
    obtain ⟨target, htarget⟩ := Option.ne_none_iff_exists'.mp (h rfl)
    unfold perform
    rw [htarget]
    dsimp only
    rw [Activity.acts_bind, acts_pushWord]
    rfl
  | returnFromCall => rfl
  | returnFromInterrupt => rfl
  | softwareBreak =>
    unfold perform
    rw [Activity.acts_bind, Activity.acts_bind, acts_enter]
    rfl

end Registers

/-! ### The traffic of an instruction -/

namespace Instruction

/-- An instruction that replaces its operand stores the result. -/
theorem stored?_of_modified? {i : Instruction} {r : Registers} {pc : UInt16} {m v : UInt8}
    (h : i.effect.modified? m { r with pc } = some v) : i.stored? r m = some v := by
  have hresult := (i.result?_withPc r pc m).symm.trans (modified_eq h)
  cases i with
  | asl | lsr | rol | ror | inc | dec => exact hresult
  | _ => cases h

/-- How long the instructions are that put an address onto the stack. -/
theorem size_of_pushes {op : Opcode} (h : op ∈ Opcode.table) :
    (op.instruction = .jsr → op.size = 3) ∧ (op.instruction = .brk → op.size = 1) := by
  have hall : ∀ op ∈ Opcode.table,
      (op.instruction = .jsr → op.size = 3) ∧ (op.instruction = .brk → op.size = 1) := by
    decide +kernel
  exact hall op h

theorem eq_jsr_of_effect {i : Instruction} (h : i.effect = .call) : i = .jsr := by
  cases i with
  | jsr => rfl
  | _ => cases h

/-- The effect of an instruction makes the traffic of the instruction. -/
theorem traffic_effect {op : Opcode} (h : op ∈ Opcode.table) (r : Registers)
    (address? : Option UInt16) (m : UInt8) :
    op.instruction.effect.traffic { r with pc := r.pc + UInt16.ofNat op.size } address? m =
      op.instruction.traffic r address? m := by
  obtain ⟨hjsr, hbrk⟩ := size_of_pushes h
  have hstored := @stored?_of_modified? op.instruction r (r.pc + UInt16.ofNat op.size) m
  cases hi : op.instruction with
  -- What these two put onto the stack is told from where they stand, not from behind them.
  | jsr =>
    have hback : r.pc + UInt16.ofNat op.size - 1 = r.pc + 2 := by
      rw [hjsr hi]
      grind
    unfold effect Effect.traffic
    dsimp only
    rw [hback]
    rfl
  | brk =>
    have hback : r.pc + UInt16.ofNat op.size + 1 = r.pc + 2 := by
      rw [hbrk hi]
      grind
    unfold effect Effect.traffic
    dsimp only
    rw [hback]
    rfl
  | asl | lsr | rol | ror | inc | dec =>
    rw [hi] at hstored
    unfold traffic
    rw [hstored rfl]
    simp [effect, Effect.traffic, takesOperand, pushed, pulled, vector?, BusAct.pushes,
      BusAct.pulls, BusAct.reads]
  | _ =>
    simp [effect, Effect.traffic, traffic, takesOperand, stored?, pushed, pulled, vector?,
      BusAct.pushes, BusAct.pulls, BusAct.reads, BusAct.writes]

end Instruction

namespace Registers

/-- **All that an instruction does on the bus.** -/
theorem acts_instruction {r : Registers} {bus : Bus} {op : Opcode}
    (h : Opcode.decode? (bus.peek r.pc) = some op) :
    Entry.acts (r.instruction.run bus).journal = r.traffic op bus := by
  have hop := Opcode.mem_table_of_decode? h
  have hcall : op.instruction.effect = .call →
      ((r.approach op.mode (bus.afterRead r.pc)).location r op.mode).address? ≠ none := by
    intro heffect
    rw [Instruction.mode_of_jsr hop (Instruction.eq_jsr_of_effect heffect)]
    exact Option.some_ne_none _
  have hacts := acts_perform { r with pc := r.pc + UInt16.ofNat op.size } op.instruction.effect
    ((bus.afterRead r.pc).after (BusAct.reads (r.wayTo op.mode (bus.afterRead r.pc)))) hcall
  rw [Approach.address?_location, Instruction.traffic_effect hop] at hacts
  rw [run_instruction_of_decode? h]
  change BusAct.read r.pc :: Entry.acts ((r.execute op).run (bus.afterRead r.pc)).journal = _
  rw [(r.run_execute op (bus.afterRead r.pc)).2]
  unfold performed
  rw [hacts]
  rfl

end Registers

end Nmos6502
