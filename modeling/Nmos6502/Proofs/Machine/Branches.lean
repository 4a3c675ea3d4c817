import Nmos6502.Proofs.Disassembly.Recovery
import Nmos6502.Proofs.Machine.Listing
import Nmos6502.Proofs.Processor.Timing

/-!
# Where branches lead

The assembler picks the operand byte of a branch, the disassembler shows the address that the byte
leads to, and the processor goes there. All three agree on where a byte leads (`reach`), at every
position (`BranchesAgree`).

The operand of a branch is a raw offset, an address or a label, and is aimed at one address
(`Statement.Aims`, `Statement.Aims.unique`). A machine that takes the branch is at that address
afterwards (`Machine.IsTaking.leadsTo`), also where the address space begins again behind its end.
-/

namespace Nmos6502

/-! ### Written targets -/

namespace Hexadecimal

theorem byteText_inj {b b' : UInt8} : byteText b = byteText b' ↔ b = b' := by
  refine ⟨fun h => ?_, congrArg byteText⟩
  have hdigits : ofBytes [b] = ofBytes [b'] := (List.cons.inj h).2
  have hbytes := congrArg bytes? hdigits
  rw [bytes?_ofBytes, bytes?_ofBytes] at hbytes
  exact List.singleton_inj.mp (Option.some.inj hbytes)

theorem addressText_inj {w w' : UInt16} : addressText w = addressText w' ↔ w = w' := by
  refine ⟨fun h => ?_, congrArg addressText⟩
  have hdigits : ofBytes [highByte w, lowByte w] = ofBytes [highByte w', lowByte w'] :=
    (List.cons.inj h).2
  have hbytes := congrArg bytes? hdigits
  rw [bytes?_ofBytes, bytes?_ofBytes] at hbytes
  obtain ⟨hhigh, hlow⟩ := List.cons.inj (Option.some.inj hbytes)
  rw [← word_lowByte_highByte w, hhigh, List.singleton_inj.mp hlow, word_lowByte_highByte]

theorem byteText_ne_addressText (b : UInt8) (w : UInt16) : byteText b ≠ addressText w := by
  intro h
  have hlength : (byteText b).length = (addressText w).length := by rw [h]
  cases hlength

end Hexadecimal

/-- No label begins like a number. -/
theorem Label.head?_toUpper_of_isLabel {name : List Char} (h : isLabel name = true) :
    (name.map Char.toUpper).head? ≠ some '$' := by
  obtain ⟨c, hc, halpha⟩ := Statement.isAlpha_of_isLabel h
  intro hdollar
  rw [Option.mem_def, hdollar] at hc
  cases hc
  cases halpha

/-! ### What a branch is aimed at -/

namespace Statement

/-- The address that the operand of a branch at `position` is aimed at: the one that a raw offset
leads to, one that is written out, or the one that a label stands for. -/
inductive Aims (symbols : Symbols) (position : UInt16) (operand : List Char) (target : UInt16) : Prop
  | offset (offset : UInt8) (written : operand.map Char.toUpper = Hexadecimal.byteText offset)
    (leads : reach position offset = target.toNat)
  | address (written : operand.map Char.toUpper = Hexadecimal.addressText target)
  | label (isLabel : Label.isLabel operand = true) (stands : symbols.resolve? operand = some target)

variable {symbols : Symbols} {position : UInt16} {i : Instruction} {operand : List Char} {line : Nat}
  {s : Statement}

/-- A branch is aimed at one address only. -/
theorem Aims.unique {target target' : UInt16} (h : Aims symbols position operand target)
    (h' : Aims symbols position operand target') : target = target' := by
  have hlabel := @Label.head?_toUpper_of_isLabel operand
  have hforms := Hexadecimal.byteText_ne_addressText
  rcases h with ⟨offset, hw, hl⟩ | hw | ⟨hn, hs⟩
  · rcases h' with ⟨offset', hw', hl'⟩ | hw' | ⟨hn', -⟩
    · rw [hw, Hexadecimal.byteText_inj] at hw'
      subst hw'
      exact UInt16.toNat_inj.mp (Int.natCast_inj.mp (hl.symm.trans hl'))
    · exact absurd (hw.symm.trans hw') (hforms _ _)
    · exact absurd (by rw [hw]; rfl) (hlabel hn')
  · rcases h' with ⟨offset', hw', -⟩ | hw' | ⟨hn', -⟩
    · exact absurd (hw'.symm.trans hw) (hforms _ _)
    · exact Hexadecimal.addressText_inj.mp (hw.symm.trans hw')
    · exact absurd (by rw [hw]; rfl) (hlabel hn')
  · rcases h' with ⟨offset', hw', -⟩ | hw' | ⟨-, hs'⟩
    · exact absurd (by rw [hw']; rfl) (hlabel hn)
    · exact absurd (by rw [hw']; rfl) (hlabel hn)
    · exact Option.some.inj (hs.symm.trans hs')

/-- The operand byte of a branch leads to the address that the operand is aimed at. -/
theorem exists_aims_of_ofBranch (h : ofBranch i operand position line = .ok s)
    (hs : s.Resolves symbols) : ∃ op offset, i.opcode? .relative = some op ∧
      (s.filled symbols).bytes = [op.code, offset] ∧
      Aims symbols position operand (branchTarget position offset) := by
  obtain ⟨op, offset, hop, hbytes, htarget⟩ := exists_offset_of_ofBranch h hs
  refine ⟨op, offset, hop, hbytes, ?_⟩
  unfold target? at htarget
  obtain ⟨-, -, ⟨raw, hrelative, -⟩ | ⟨hrelative, ⟨target, -, habsolute, -, -⟩ |
    ⟨habsolute, hlabel, -⟩⟩⟩ := of_ofBranch h
  · rw [hrelative] at htarget
    rw [← Option.some.inj htarget]
    exact .offset raw (AddressingMode.format_of_parse? hrelative).symm (toNat_branchTarget _ _).symm
  · rw [hrelative, habsolute] at htarget
    obtain ⟨low, high, rfl⟩ := List.length_eq_two.mp (AddressingMode.length_of_parse? habsolute)
    have hwritten : littleEndian (word low high) = [low, high] := by simp [littleEndian]
    rw [← Option.some.inj htarget]
    refine .address ?_
    rw [Hexadecimal.addressText_eq_format]
    change _ = AddressingMode.absolute.format (littleEndian (word low high))
    rw [hwritten]
    exact (AddressingMode.format_of_parse? habsolute).symm
  · rw [hrelative, habsolute] at htarget
    exact .label hlabel htarget

end Statement

/-! ### The assembler, the disassembler and the processor -/

/-- The assembler, the disassembler and the processor agree on where the branches at an address
lead. -/
structure BranchesAgree (position : UInt16) : Prop where
  /-- The assembler picks the byte that leads to the target, -/
  offset {target : UInt16} {offset : UInt8} :
    branchOffset position target = .ok offset ↔ reach position offset = target.toNat
  /-- and refuses a target exactly if no byte leads there. -/
  refused {target : UInt16} {problem : Problem} : branchOffset position target = .error problem ↔
    problem = .branchOutOfRange target (position + 2) ∧
      ∀ offset, reach position offset ≠ target.toNat
  /-- The disassembler shows where the byte leads, -/
  shown {op : Opcode} (offset : UInt8) : op.mode = .relative →
    ∃ target, (Decoded.mk position op [offset]).target? = some target ∧
      target.toNat = reach position offset
  /-- and the processor finds the operand there. -/
  located {r : Registers} (bus : Bus) : r.pc = position →
    ∃ target, ((r.locate .relative).run bus).value.place = .memory target ∧
      target.toNat = reach position (bus.peek (position + 1))

theorem branchesAgree (position : UInt16) : BranchesAgree position where
  offset := branchOffset_eq_ok_iff.trans branchTarget_eq_iff_reach
  refused := by
    simp only [branchOffset_eq_error_iff, ne_eq, branchTarget_eq_iff_reach, implies_true]
  shown offset hm := by
    refine ⟨branchTarget position offset, ?_, toNat_branchTarget position offset⟩
    unfold Decoded.target?
    rw [if_pos hm]
    rfl
  located {r} bus hpc := by
    subst hpc
    obtain ⟨hvalue, -⟩ := r.run_locate .relative bus
    rw [hvalue]
    exact ⟨_, rfl, toNat_branchTarget r.pc (bus.peek (r.pc + 1))⟩

/-! ### Taking a branch -/

namespace Machine

/-- The machine is about to take a branch whose bytes stand at the program counter. -/
structure IsTaking (m : Machine) (i : Instruction) (bytes : List UInt8) : Prop where
  isAtInstruction : m.IsAtInstruction
  condition : i.condition m.registers.flags = true
  holds : m.bus.Holds m.registers.pc bytes

/-- A step leads to the address that the operand of a branch is aimed at. -/
structure LeadsTo (m : Machine) (symbols : Symbols) (operand : List Char) : Prop where
  result : ∃ cycles, m.step.result = .ok cycles
  pc {target : UInt16} : m.step.machine.registers.pc = target ↔
    Statement.Aims symbols m.registers.pc operand target

variable {m : Machine} {i : Instruction} {symbols : Symbols} {mnemonic operand : List Char}
  {line : Nat} {s : Statement}

/-- **A branch that is taken** leads to the address that its operand is aimed at. -/
theorem IsTaking.leadsTo (h : m.IsTaking i (s.filled symbols).bytes)
    (hi : Instruction.ofMnemonic? mnemonic = some i)
    (he : Statement.encode mnemonic operand m.registers.pc line = .ok s)
    (hs : s.Resolves symbols) : m.LeadsTo symbols operand := by
  have htaken : i.isTaken m.registers.flags = true :=
    (i.isTaken_eq_condition _).trans h.condition
  rw [Statement.encode_of_ofMnemonic? hi] at he
  unfold Statement.ofInstruction at he
  rw [if_pos (Instruction.isBranch_of_isTaken htaken)] at he
  obtain ⟨op, offset, hop, hbytes, haims⟩ := Statement.exists_aims_of_ofBranch he hs
  obtain ⟨htable, rfl, hm⟩ := Instruction.of_opcode? hop
  have hsound : (Item.instruction ⟨m.registers.pc, op, [offset]⟩).Sound := ⟨htable, by rw [hm]; rfl⟩
  have hholds := h.holds
  rw [hbytes] at hholds
  have hcarries := carriesOut_of_decode? h.isAtInstruction (Item.decode?_of_sound hsound []) hholds
  have htarget := hcarries.target?_of_isTaken htaken
  unfold Decoded.target? at htarget
  rw [if_pos hm] at htarget
  rw [Option.some.inj htarget] at haims
  refine ⟨⟨_, hcarries.result⟩, fun {target} => ⟨?_, haims.unique⟩⟩
  rintro rfl
  exact haims

/-- **Branches lead where they are aimed.** The assembler, the disassembler and the processor agree on
where a branch leads, and a machine that takes a branch of an assembled statement, alone or in a
program, is afterwards at the address that its operand is aimed at. -/
theorem branches_lead_where_they_aim :
    (∀ position, BranchesAgree position) ∧
    (∀ (m : Machine) (i : Instruction) (symbols : Symbols) (mnemonic operand : List Char)
      (line : Nat) (s : Statement), Instruction.ofMnemonic? mnemonic = some i →
        Statement.encode mnemonic operand m.registers.pc line = .ok s → s.Resolves symbols →
        m.IsTaking i (s.filled symbols).bytes → m.LeadsTo symbols operand) ∧
    ∀ (origin : UInt16) (source : List Char) (program : Program),
      Program.assemble origin source = .ok program →
        ∀ site ∈ program.sites ((lines source).map Line.parse),
        ∀ (m : Machine) (i : Instruction) (mnemonic : List Char),
          site.line.mnemonic = some mnemonic → Instruction.ofMnemonic? mnemonic = some i →
          m.registers.pc.toNat = site.position → m.IsTaking i (site.code program.symbols) →
            m.LeadsTo program.symbols site.line.operand ∧
            ∀ aim ∈ program.sites ((lines source).map Line.parse),
              aim.line.label = some site.line.operand →
                m.step.machine.registers.pc.toNat = aim.position := by
  refine ⟨branchesAgree, fun m i symbols mnemonic operand line s hi he hs h => h.leadsTo hi he hs, ?_⟩
  intro origin source program hp site hsite m i mnemonic hm hi hpc h
  have hlaid := (Program.isLaidOut hp).2
  obtain ⟨s, he, hposition, hs, hcode⟩ := hlaid.statement hsite hm
  have hat : m.registers.pc = s.position := UInt16.toNat_inj.mp (hpc.trans hposition.symm)
  rw [← hat] at he
  rw [hcode] at h
  have hleads := h.leadsTo hi he hs
  refine ⟨hleads, fun aim haim hlabel => ?_⟩
  obtain ⟨hname, symbol, hsymbol, -, haddress⟩ := hlaid.label haim hlabel
  have hstands : program.symbols.resolve? site.line.operand = some symbol.address :=
    congrArg (Option.map Symbol.address) hsymbol
  rw [hleads.pc.mpr (.label hname hstands), haddress]

/-- Three branches at the end of memory: to a label, by a raw offset and to an address, the last two of
them to the beginning of memory. -/
theorem branches_lead_over_the_end :
    let range : AddressRange := ⟨0xFFF0, 0xFFFF, by decide⟩
    let bytes : List UInt8 := [0xD0, 0xFE, 0x10, 0x7F, 0xD0, 0x05]
    let bus : Bus := ⟨#[.ram ((Ram.new range).load 10 bytes)], .new⟩
    let m (pc : UInt16) : Machine :=
      { unreset bus .new none with registers := ⟨0, 0, 0, 0xFF, pc, .clear⟩ }
    Program.assemble 0xFFFA "back: BNE back\n BPL $7f\n BNE $0005".toList =
        .ok ⟨0xFFFA, bytes, ⟨[⟨"back".toList, 0xFFFA, 1⟩]⟩⟩ ∧
      (m 0xFFFA).step.machine.registers.pc.toNat = 0xFFFA ∧
      (m 0xFFFC).step.machine.registers.pc = 0x007D ∧
      (m 0xFFFE).step.machine.registers.pc = 0x0005 := by
  intro range bytes bus m
  have hassemble : Program.assemble 0xFFFA "back: BNE back\n BPL $7f\n BNE $0005".toList =
      .ok ⟨0xFFFA, bytes, ⟨[⟨"back".toList, 0xFFFA, 1⟩]⟩⟩ := by decide +kernel
  have htaking : ∀ pc b b' i, bus.owner? pc = some 0 → bus.owner? (pc + 1) = some 0 →
      bus.peek pc = b → bus.peek (pc + 1) = b' → i.condition Flags.clear = true →
        (m pc).IsTaking i [b, b'] := by
    intro pc b b' i h h' hb hb' hi
    have hmemory : ∀ address, bus.owner? address = some 0 → bus.IsMemory address :=
      fun address ha => ⟨0, _, Bus.isFirst_iff.mpr ⟨ha, rfl⟩, Option.some_ne_none _⟩
    exact ⟨⟨rfl, rfl⟩, hi, .cons ⟨hmemory _ h, hb⟩ (.cons ⟨hmemory _ h', hb'⟩ (.nil _ _))⟩
  obtain ⟨-, hstatement, hprogram⟩ := branches_lead_where_they_aim
  have hback := hprogram 0xFFFA _ _ hassemble ⟨Line.parse "back: BNE back".toList, 0xFFFA, 1⟩
    (by decide +kernel) (m 0xFFFA) .bne "BNE".toList (by decide +kernel) (by decide +kernel) rfl
    (htaking _ 0xD0 0xFE _ (by decide +kernel) (by decide +kernel) (by decide +kernel)
      (by decide +kernel) rfl)
  have hraw := hstatement (m 0xFFFC) .bpl .empty "BPL".toList "$7f".toList 2 _ (by decide +kernel) rfl
    ⟨_, rfl⟩ (htaking _ 0x10 0x7F _ (by decide +kernel) (by decide +kernel) (by decide +kernel)
      (by decide +kernel) rfl)
  have hforth := hprogram 0xFFFA _ _ hassemble ⟨Line.parse " BNE $0005".toList, 0xFFFE, 3⟩
    (by decide +kernel) (m 0xFFFE) .bne "BNE".toList (by decide +kernel) (by decide +kernel) rfl
    (htaking _ 0xD0 0x05 _ (by decide +kernel) (by decide +kernel) (by decide +kernel)
      (by decide +kernel) rfl)
  refine ⟨hassemble, ?_, ?_, ?_⟩
  · exact hback.2 ⟨Line.parse "back: BNE back".toList, 0xFFFA, 1⟩ (by decide +kernel)
      (by decide +kernel)
  · exact hraw.pc.mpr (.offset 0x7F (by decide +kernel) (by decide +kernel))
  · exact hforth.1.pc.mpr (.address (by decide +kernel))

end Machine

end Nmos6502
