import Nmos6502.Disassembly.Item
import Nmos6502.Proofs.Machine.IllegalOpcode

/-!
# Running what a listing shows

At an instruction boundary without an interrupt, the machine fails if the bytes at the program counter
cannot be decoded, and otherwise carries out the instruction that they decode to
(`Machine.CarriesOut`). A machine that runs into bytes whose listing shows only instructions that
go on behind themselves goes through the lines of the listing one by one (`Machine.RunsThrough`,
`Machine.executes_listing`), as long as it does not overwrite them.
-/

namespace Nmos6502

namespace Item

/-- An item is an instruction that always goes on behind itself. -/
def isPlain : Item → Bool
  | instruction d => !d.opcode.instruction.isJump && !d.opcode.instruction.isBranch
  | data _ _ => false

theorem exists_decoded_of_isPlain {byte : UInt8} {rest : List UInt8} {address : UInt16}
    (h : (first byte rest address).isPlain = true) :
    ∃ d, Decoded.decode? (byte :: rest) address = some d ∧
      first byte rest address = .instruction d ∧ d.opcode.instruction.isJump = false ∧
      d.opcode.instruction.isBranch = false := by
  unfold first at h ⊢
  split at h
  · next d hd =>
    obtain ⟨hjump, hbranch⟩ := Bool.and_eq_true_iff.mp h
    exact ⟨d, hd, rfl, by simpa using hjump, by simpa using hbranch⟩
  · cases h

end Item

namespace Machine

/-- The three bytes from the program counter on. -/
def ahead (m : Machine) : List UInt8 :=
  [m.bus.peek m.registers.pc, m.bus.peek (m.registers.pc + 1), m.bus.peek (m.registers.pc + 2)]

/-! ### One instruction -/

/-- **A step carries out a decoded instruction**, and goes on where that says. -/
structure CarriesOut (m : Machine) (d : Decoded) : Prop where
  result : m.step.result = .ok ((d.carryOut m.registers).run m.bus).value.2
  registers : m.step.machine.registers = ((d.carryOut m.registers).run m.bus).value.1
  bus : m.step.machine.bus = ((d.carryOut m.registers).run m.bus).bus
  journal : m.step.journal =
    d.fetched m.registers.pc ++ ((d.carryOut m.registers).run m.bus).journal
  cycles : m.step.machine.cycles = 0
  pc_of_goesOn : d.opcode.instruction.isJump = false →
    d.opcode.instruction.isTaken m.registers.flags = false →
      m.step.machine.registers.pc = m.registers.pc + UInt16.ofNat d.opcode.size
  target?_of_isTaken : d.opcode.instruction.isTaken m.registers.flags = true →
    d.target? = some m.step.machine.registers.pc
  littleEndian_of_jump : d.opcode.instruction = .jsr ∨
      d.opcode.instruction = .jmp ∧ d.opcode.mode = .absolute →
    d.operand = littleEndian m.step.machine.registers.pc

variable {m : Machine} {d : Decoded}

theorem step_eq_of_holds (h : m.IsAtInstruction) (hop : Opcode.decode? d.opcode.code = some d.opcode)
    (hlength : d.operand.length = d.opcode.mode.operandSize)
    (hbytes : m.bus.Holds m.registers.pc d.bytes) : m.step =
      ⟨.ok ((d.carryOut m.registers).run m.bus).value.2,
        { m.sample.2 with
          registers := ((d.carryOut m.registers).run m.bus).value.1
          cycles := 0
          totalCycles := m.totalCycles + ((d.carryOut m.registers).run m.bus).value.2
          bus := ((d.carryOut m.registers).run m.bus).bus },
        d.fetched m.registers.pc ++ ((d.carryOut m.registers).run m.bus).journal⟩ := by
  have hbegun : m.begun = _ := h.begun_eq.trans
    (Registers.run_instruction_of_holds hop hlength hbytes)
  have hvalue : m.begun.value = .ok ((d.carryOut m.registers).run m.bus).value := by rw [hbegun]
  rw [step_of_begun_ok h.1 hvalue, hbegun]

/-- **An instruction in memory** is carried out as it is decoded. -/
theorem carriesOut_of_decode? {bytes : List UInt8} (h : m.IsAtInstruction)
    (hd : Decoded.decode? bytes m.registers.pc = some d)
    (hbytes : m.bus.Holds m.registers.pc d.bytes) : m.CarriesOut d := by
  obtain ⟨hop, hlength, -, haddress⟩ := Decoded.of_decode? hd
  have htable := Opcode.mem_table_of_decode? hop
  have hstep := step_eq_of_holds h hop hlength hbytes
  have hregisters : m.step.machine.registers = ((d.carryOut m.registers).run m.bus).value.1 := by
    rw [hstep]
  refine ⟨by rw [hstep], hregisters, by rw [hstep], by rw [hstep], by rw [hstep], ?_, ?_, ?_⟩
  · intro hj ht
    rw [hregisters]
    exact Decoded.pc_of_goesOn hj ht m.bus
  · intro ht
    rw [hregisters]
    exact Decoded.target?_of_isTaken htable hlength haddress ht m.bus
  · intro hj
    rw [hregisters]
    exact Decoded.littleEndian_of_jump htable hlength hj m.bus

/-- Three bytes can be decoded if the first one is an opcode. -/
theorem decode?_ahead_eq_none_iff (m : Machine) :
    Decoded.decode? m.ahead m.registers.pc = none ↔
      Opcode.decode? (m.bus.peek m.registers.pc) = none := by
  unfold Decoded.decode? ahead
  dsimp only
  cases Opcode.decode? (m.bus.peek m.registers.pc) with
  | none => simp
  | some op =>
    have hsize : op.mode.operandSize ≤ 2 := by
      cases op.mode <;> decide
    simp [hsize]

/-- **The machine executes what is decoded**, or fails where nothing can be decoded. -/
theorem executes_ahead (h : m.IsAtInstruction) (h₀ : m.bus.IsMemory m.registers.pc)
    (h₁ : m.bus.IsMemory (m.registers.pc + 1)) (h₂ : m.bus.IsMemory (m.registers.pc + 2)) :
    (Decoded.decode? m.ahead m.registers.pc = none ↔ ∃ e, m.tick.result = .error e) ∧
      ∀ d, Decoded.decode? m.ahead m.registers.pc = some d → m.CarriesOut d := by
  constructor
  · rw [decode?_ahead_eq_none_iff]
    constructor
    · intro hop
      exact ⟨_, tick_eq_error_iff.mpr ⟨h, hop, rfl⟩⟩
    · rintro ⟨e, he⟩
      exact (tick_eq_error_iff.mp he).2.1
  · intro d hd
    have htwo : m.registers.pc + 2 = m.registers.pc + 1 + 1 := by
      rw [UInt16.add_assoc]
      rfl
    have hahead : m.bus.Holds m.registers.pc m.ahead := by
      rw [htwo] at h₂
      unfold ahead
      rw [htwo]
      exact .cons ⟨h₀, rfl⟩ (.cons ⟨h₁, rfl⟩ (.cons ⟨h₂, rfl⟩ (.nil _ _)))
    obtain ⟨-, -, ⟨rest, hprefix⟩, -⟩ := Decoded.of_decode? hd
    rw [← hprefix] at hahead
    exact carriesOut_of_decode? h hd (Placed.of_append hahead).1

/-! ### One line after the other -/

/-- **The machine runs through some items**: its steps carry them out one by one, and it is at their
addresses at the instruction boundaries. -/
structure RunsThrough (m : Machine) (items : List Item) : Prop where
  result {k : Nat} : k ≤ items.length → ∃ t, (m.steps k).result = .ok t
  cycles {k : Nat} : k ≤ items.length → (m.steps k).machine.cycles = 0
  carriesOut {k : Nat} {d : Decoded} : items[k]? = some (.instruction d) →
    (m.steps k).machine.CarriesOut d
  pc : (List.range items.length).map (fun k => (m.steps k).machine.registers.pc) =
    items.map Item.address

theorem machine_steps_succ {n : Nat} (h : m.step.result = .ok n) (k : Nat) :
    (m.steps (k + 1)).machine = (m.step.machine.steps k).machine ∧
      (m.steps (k + 1)).result = (m.step.machine.steps k).result.map (fun t => n + t) ∧
      (m.steps (k + 1)).journal = m.step.journal ++ (m.step.machine.steps k).journal := by
  rw [steps_succ, Outcome.andThen_of_ok h]
  exact ⟨rfl, rfl, rfl⟩

theorem RunsThrough.nil (h : m.cycles = 0) : m.RunsThrough [] where
  result {k} hk := by
    obtain rfl := Nat.le_zero.mp hk
    exact ⟨0, rfl⟩
  cycles {k} hk := by
    obtain rfl := Nat.le_zero.mp hk
    exact h
  carriesOut hd := by cases hd
  pc := rfl

theorem RunsThrough.cons {items : List Item} (hz : m.cycles = 0) (hd : m.CarriesOut d)
    (haddress : d.address = m.registers.pc) (h : m.step.machine.RunsThrough items) :
    m.RunsThrough (.instruction d :: items) where
  result {k} hk := by
    cases k with
    | zero => exact ⟨0, rfl⟩
    | succ k =>
      obtain ⟨t, ht⟩ := h.result (Nat.le_of_succ_le_succ hk)
      rw [(machine_steps_succ hd.result k).2.1, ht]
      exact ⟨_, rfl⟩
  cycles {k} hk := by
    cases k with
    | zero => exact hz
    | succ k =>
      rw [(machine_steps_succ hd.result k).1]
      exact h.cycles (Nat.le_of_succ_le_succ hk)
  carriesOut {k d'} hk := by
    cases k with
    | zero =>
      cases hk
      exact hd
    | succ k =>
      rw [(machine_steps_succ hd.result k).1]
      exact h.carriesOut hk
  pc := by
    have hsucc : (fun k => (m.steps k).machine.registers.pc) ∘ Nat.succ =
        fun k => (m.step.machine.steps k).machine.registers.pc := by
      funext k
      exact congrArg (fun m => m.registers.pc) (machine_steps_succ hd.result k).1
    rw [List.length_cons, List.range_succ_eq_map, List.map_cons, List.map_map, List.map_cons, hsucc,
      h.pc]
    exact congrArg (· :: items.map Item.address) haddress.symm

/-- What is spared by a step stays in memory. -/
theorem CarriesOut.holds_step {address : UInt16} {bytes : List UInt8} (h : m.CarriesOut d)
    (hbytes : m.bus.Holds address bytes) (hspares : m.bus.Spares m.step.journal address bytes) :
    m.step.machine.bus.Holds address bytes := by
  rw [h.bus, Activity.run_bus]
  refine hbytes.after (hspares.of_subset ?_)
  rw [h.journal]
  exact List.subset_append_right ..

theorem CarriesOut.spares_step {address : UInt16} {bytes : List UInt8} {journal : List Entry}
    (h : m.CarriesOut d) (hspares : m.bus.Spares journal address bytes) :
    m.step.machine.bus.Spares journal address bytes := by
  rw [h.bus, Activity.run_bus]
  exact hspares.after _

/-- **One line of a listing**: an instruction in memory that goes on behind itself is carried out, and the
machine goes on behind it. -/
theorem carriesOut_first {byte : UInt8} {rest : List UInt8} (h : m.IsAtInstruction)
    (hplain : (Item.first byte rest m.registers.pc).isPlain = true)
    (hbytes : m.bus.Holds m.registers.pc (Item.first byte rest m.registers.pc).bytes) :
    ∃ d, Item.first byte rest m.registers.pc = .instruction d ∧ m.CarriesOut d ∧
      d.address = m.registers.pc ∧ m.step.machine.registers.pc =
        m.registers.pc + UInt16.ofNat (Item.instruction d).bytes.length := by
  obtain ⟨d, hdecode, hfirst, hjump, hbranch⟩ := Item.exists_decoded_of_isPlain hplain
  rw [hfirst] at hbytes
  obtain ⟨-, hlength, -, haddress⟩ := Decoded.of_decode? hdecode
  have hstep : m.CarriesOut d := carriesOut_of_decode? h hdecode hbytes
  have hsize : (Item.instruction d).bytes.length = d.opcode.size :=
    congrArg (· + 1) hlength
  refine ⟨d, hfirst, hstep, haddress, ?_⟩
  rw [hsize]
  exact hstep.pc_of_goesOn hjump (Instruction.isTaken_of_not_isBranch hbranch _)

/-- The machine runs through bytes whose listing shows only instructions that go on behind
themselves. -/
theorem runsThrough_of_holds {bytes : List UInt8} {origin : UInt16} (hz : m.cycles = 0)
    (hpc : m.registers.pc = origin) (hbytes : m.bus.Holds origin bytes)
    (hplain : ∀ item ∈ Item.ofBytes bytes origin, item.isPlain = true)
    (hnone : ∀ k < (Item.ofBytes bytes origin).length, (m.steps k).machine.sample.1 = none)
    (hspares : m.bus.Spares (m.steps (Item.ofBytes bytes origin).length).journal origin bytes) :
    m.RunsThrough (Item.ofBytes bytes origin) := by
  -- The induction is on the listing; that the rest of the bytes stays in memory carries it.
  fun_induction Item.ofBytes bytes origin generalizing m with
  | case1 origin => exact .nil hz
  | case2 byte rest origin item =>
    rename_i ih
    obtain ⟨hitem, hrest⟩ := List.forall_mem_cons.mp hplain
    have hcover : item.bytes ++ rest.drop (item.bytes.length - 1) = byte :: rest :=
      Item.bytes_first_append byte rest origin
    rw [← hcover] at hbytes hspares
    obtain ⟨hhere, hthere⟩ := Placed.of_append hbytes
    obtain ⟨-, hspared⟩ := Placed.of_append hspares
    subst hpc
    obtain ⟨d, hd, hstep, haddress, hnext⟩ :=
      carriesOut_first ⟨hz, hnone 0 (Nat.succ_pos _)⟩ hitem hhere
    change item = _ at hd
    generalize Item.ofBytes (rest.drop (item.bytes.length - 1))
      (m.registers.pc + UInt16.ofNat item.bytes.length) = items at *
    clear_value item
    subst hd
    have hjournal := (machine_steps_succ hstep.result items.length).2.2
    rw [List.length_cons, hjournal] at hspared
    have hhead := Bus.Spares.of_subset hspared (List.subset_append_left ..)
    have htail := Bus.Spares.of_subset hspared (List.subset_append_right ..)
    refine .cons hz hstep haddress (ih hstep.cycles hnext ?_ hrest ?_ ?_)
    · exact hstep.holds_step hthere hhead
    · intro k hk
      rw [← (machine_steps_succ hstep.result k).1]
      exact hnone (k + 1) (Nat.succ_lt_succ hk)
    · exact hstep.spares_step htail

/-- **The machine executes what the listing shows**: where it is to carry out an instruction in
memory, it carries out the one that its bytes decode to, or fails if there is none; and it runs through
bytes in memory that it does not overwrite line by line, as long as no line leads elsewhere. -/
theorem executes_listing (m : Machine) :
    (m.IsAtInstruction → m.bus.IsMemory m.registers.pc → m.bus.IsMemory (m.registers.pc + 1) →
      m.bus.IsMemory (m.registers.pc + 2) →
        (Decoded.decode? m.ahead m.registers.pc = none ↔ ∃ e, m.tick.result = .error e) ∧
          ∀ d, Decoded.decode? m.ahead m.registers.pc = some d → m.CarriesOut d) ∧
    ∀ bytes origin, m.cycles = 0 → m.registers.pc = origin → m.bus.Holds origin bytes →
      (∀ item ∈ Item.ofBytes bytes origin, item.isPlain = true) →
      (∀ k < (Item.ofBytes bytes origin).length, (m.steps k).machine.sample.1 = none) →
      m.bus.Spares (m.steps (Item.ofBytes bytes origin).length).journal origin bytes →
        m.RunsThrough (Item.ofBytes bytes origin) :=
  ⟨executes_ahead, fun _ _ => runsThrough_of_holds⟩

/-- A program that ends with the last byte of memory and stores a byte elsewhere. -/
theorem executes_listing_at_the_end :
    let range : AddressRange := ⟨0xFFF0, 0xFFFF, by decide⟩
    let bytes : List UInt8 := [0xA9, 0x42, 0xAA, 0x85, 0x10, 0xEA]
    let bus : Bus := ⟨#[.ram ((Ram.new range).load 10 bytes)], .new⟩
    let m : Machine := { unreset bus .new none with registers := ⟨0, 0, 0, 0xFF, 0xFFFA, .clear⟩ }
    m.CarriesOut ⟨0xFFFA, ⟨0xA9, .lda, .immediate, 2⟩, [0x42]⟩ ∧
      (List.range 4).map (fun k => (m.steps k).machine.registers.pc) =
        [0xFFFA, 0xFFFC, 0xFFFD, 0xFFFF] := by
  intro range bytes bus m
  have hmemory : ∀ address, bus.owner? address = some 0 → bus.IsMemory address := fun address h =>
    ⟨0, _, Bus.isFirst_iff.mpr ⟨h, rfl⟩, Option.some_ne_none _⟩
  have hbytes : bus.Holds 0xFFFA bytes := by
    have hall : ∀ k < 6, bus.owner? (0xFFFA + UInt16.ofNat k) = some 0 ∧
        some (bus.peek (0xFFFA + UInt16.ofNat k)) = bytes[k]? := by decide +kernel
    intro k b hb
    obtain ⟨hlt, -⟩ := List.getElem?_eq_some_iff.mp hb
    obtain ⟨howner, hpeek⟩ := hall k hlt
    exact ⟨hmemory _ howner, Option.some.inj (hpeek.trans hb)⟩
  -- All that is computed about the listing and the run is computed at once.
  obtain ⟨hlength, haddresses, hplain, hnone, hwrites, hdecode⟩ :
      (Item.ofBytes bytes 0xFFFA).length = 4 ∧
      (Item.ofBytes bytes 0xFFFA).map Item.address = [0xFFFA, 0xFFFC, 0xFFFD, 0xFFFF] ∧
      (∀ item ∈ Item.ofBytes bytes 0xFFFA, item.isPlain = true) ∧
      (∀ k < 4, (m.steps k).machine.sample.1 = none) ∧
      ((m.steps 4).journal.all fun
        | .write address _ => address == 0x0010
        | .read .. | .event _ => true) = true ∧
      Decoded.decode? m.ahead 0xFFFA =
        some ⟨0xFFFA, ⟨0xA9, .lda, .immediate, 2⟩, [0x42]⟩ := by decide +kernel
  have hspares : m.bus.Spares (m.steps 4).journal 0xFFFA bytes := by
    have helsewhere : ∀ k < 6, 0xFFFA + UInt16.ofNat k ≠ 0x0010 := by decide +kernel
    intro k b hb _ value hmem
    obtain ⟨hlt, -⟩ := List.getElem?_eq_some_iff.mp hb
    exact absurd (beq_iff_eq.mp (List.all_eq_true.mp hwrites _ hmem)) (helsewhere k hlt)
  rw [← hlength] at hnone hspares
  have hruns : m.RunsThrough (Item.ofBytes bytes 0xFFFA) :=
    (executes_listing m).2 bytes 0xFFFA rfl rfl hbytes hplain hnone hspares
  have hpc := hruns.pc
  rw [hlength] at hpc
  refine ⟨?_, hpc.trans haddresses⟩
  exact ((executes_listing m).1 ⟨rfl, by decide +kernel⟩ (hmemory _ (by decide +kernel))
    (hmemory _ (by decide +kernel)) (hmemory _ (by decide +kernel))).2 _ hdecode

end Machine

end Nmos6502
