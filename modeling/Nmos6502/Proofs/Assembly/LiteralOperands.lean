import Mathlib.Data.List.Forall2
import Nmos6502.Proofs.Assembly.BranchReach
import Nmos6502.Proofs.Assembly.LineParts
import Nmos6502.Proofs.Assembly.OperandForms
import Nmos6502.Proofs.Assembly.Passes

/-!
# Operands without labels

An operand that a mode writes stands for its bytes (`ofInstruction_format`), and an address stands
for the branch that leads to it (`ofBranch_addressText`).

A statement with a label waits for the label's address, and whether an operand is a label operand
depends on neither the position nor the line (`exists_takesLabel`). The address can also be written in
the place of the label (`literalForm`). Filling it in afterwards and encoding the literal form come to
the same (`ofInstruction_literalForm`): the statements are equal, and only a branch that does not reach
its target is refused, for its range (`kind_of_patch_eq_error`).
-/

namespace Nmos6502

namespace Hexadecimal

theorem addressText_eq_format (address : UInt16) :
    addressText address = AddressingMode.absolute.format (littleEndian address) := by
  unfold AddressingMode.format
  dsimp only
  rw [AddressingMode.operandBytes_eq_self rfl]
  exact (List.append_nil _).symm

theorem byteText_eq_format (byte : UInt8) :
    byteText byte = AddressingMode.zeroPage.format [byte] := by
  unfold AddressingMode.format
  dsimp only
  rw [AddressingMode.operandBytes_eq_self rfl]
  exact (List.append_nil _).symm

end Hexadecimal

theorem Instruction.mnemonic_of_ofMnemonic? {text : List Char} {i : Instruction}
    (h : ofMnemonic? text = some i) : i.mnemonic = text.map Char.toUpper := by
  simpa using List.find?_some h

/-- What a mode writes divides nothing in a line. -/
theorem AddressingMode.isPlain_of_mem_format {mode : AddressingMode} {bytes : List UInt8} {c : Char}
    (h : c ∈ mode.format bytes) : Line.IsPlain c := by
  have hall : ∀ c ∈ alphabet, Line.IsPlain c := forall_mem_of_all (by decide)
  exact hall c (mem_alphabet_of_mem_format h)

namespace Statement

/-- A mnemonic in either case makes the statements of its instruction. -/
theorem encode_of_ofMnemonic? {mnemonic : List Char} {i : Instruction}
    (h : Instruction.ofMnemonic? mnemonic = some i) (operand : List Char) (position : UInt16)
    (line : Nat) : encode mnemonic operand position line = ofInstruction i operand position line := by
  have hdot : ∀ i ∈ Instruction.all, i.mnemonic.head? ≠ some '.' := by decide
  have hi := hdot i (Instruction.mem_all i)
  unfold encode
  split
  · rw [Instruction.mnemonic_of_ofMnemonic? h] at hi
    exact absurd rfl hi
  · rw [h]

theorem encode_mnemonic (i : Instruction) (operand : List Char) (position : UInt16) (line : Nat) :
    encode i.mnemonic operand position line = ofInstruction i operand position line :=
  encode_of_ofMnemonic? (Instruction.ofMnemonic?_mnemonic i) operand position line

/-! ### Literal operands -/

/-- An address stands for the branch that leads to it. -/
theorem ofBranch_addressText {op : Opcode} (hop : op ∈ Opcode.table) (hm : op.mode = .relative)
    (target position : UInt16) (line : Nat) :
    ofBranch op.instruction (Hexadecimal.addressText target) position line =
      (branchOffset position target).map fun offset => data [op.code, offset] position line := by
  have habsolute : AddressingMode.absolute.parse? (Hexadecimal.addressText target) =
      some (littleEndian target) := by
    rw [Hexadecimal.addressText_eq_format]
    exact AddressingMode.parse?_format rfl
  have hrelative : AddressingMode.relative.parse? (Hexadecimal.addressText target) = none := by
    rw [Option.eq_none_iff_forall_ne_some]
    intro bytes hb
    have hout := AddressingMode.outline_mem_outlines habsolute
    have hout' := AddressingMode.outline_mem_outlines hb
    exact absurd (AddressingMode.eq_or_alike_of_outlines hout hout') (by decide)
  have hword : word ((littleEndian target).getD 0 0) ((littleEndian target).getD 1 0) = target :=
    word_lowByte_highByte target
  have hopcode : op.instruction.opcode? .relative = some op := by
    rw [← hm]
    exact Instruction.opcode?_of_mem_table hop
  unfold ofBranch
  simp only [hopcode, hrelative, habsolute, hword]
  rfl

/-- An operand as its mode writes it stands for its bytes. -/
theorem ofInstruction_format {op : Opcode} {bytes : List UInt8} (hop : op ∈ Opcode.table)
    (hm : op.mode ≠ .relative) (hl : bytes.length = op.mode.operandSize) (position : UInt16)
    (line : Nat) : ofInstruction op.instruction (op.mode.format bytes) position line =
      .ok (data (op.code :: bytes) position line) := by
  have hbranch : ¬ op.instruction.isBranch = true := by
    rw [Instruction.isBranch_iff_of_mem_table hop]
    exact hm
  have hliteral : literal? op.instruction (op.mode.format bytes) AddressingMode.all =
      some (op, bytes) :=
    literal?_eq_some_iff.mpr ⟨Instruction.opcode?_of_mem_table hop, AddressingMode.parse?_format hl⟩
  unfold ofInstruction
  rw [if_neg hbranch, AddressingMode.toUpper_format, hliteral]
  rfl

/-! ### Label operands -/

theorem not_mem_comma_of_isLabel {name : List Char} (h : Label.isLabel name = true) :
    name ≠ [] ∧ ',' ∉ name := by
  cases name with
  | nil => cases h
  | cons first rest =>
    obtain ⟨-, hfirst, hrest⟩ := Label.isLabel_cons_iff.mp h
    refine ⟨List.cons_ne_nil _ _, fun hc => ?_⟩
    rcases List.mem_cons.mp hc with rfl | hc
    · exact absurd hfirst (by decide)
    · exact absurd (hrest _ hc) (by decide)

/-- In upper case too a label begins with a letter. -/
theorem isAlpha_of_isLabel {name : List Char} (h : Label.isLabel name = true) :
    ∃ c ∈ (name.map Char.toUpper).head?, c.isAlpha = true := by
  cases name with
  | nil => cases h
  | cons first rest =>
    obtain ⟨-, hfirst, -⟩ := Label.isLabel_cons_iff.mp h
    refine ⟨first.toUpper, rfl, ?_⟩
    refine toUpper_induction (p := fun c d => c.isAlpha = true → d.isAlpha = true) ?_ ?_ first hfirst
    · decide +kernel
    · exact fun _ _ hc => hc

theorem splitIndex_of_not_mem {operand : List Char} (h : ',' ∉ operand) :
    splitIndex operand = (operand, .absolute) := by
  have hbefore : ∀ index, before? [',', index] operand = none := by
    intro index
    rw [Option.eq_none_iff_forall_ne_some]
    rintro name hn
    rw [before?_eq_some_iff.mp hn] at h
    simp at h
  unfold splitIndex
  simp only [hbefore]

/-- The modes that take a label. -/
theorem mode_splitIndex (operand : List Char) : (splitIndex operand).2 = .absolute ∨
    (splitIndex operand).2 = .absoluteX ∨ (splitIndex operand).2 = .absoluteY := by
  unfold splitIndex
  split <;> simp

/-- The statement of an opcode whose operand waits for the address of a label. -/
def waiting (op : Opcode) (operand : List Char) (position : UInt16) (line : Nat) : Statement :=
  if op.mode = .relative then ⟨[op.code, 0], some (operand, .relative), position, line⟩
  else ⟨[op.code, 0, 0], some ((splitIndex operand).1, .absolute), position, line⟩

/-- The operand of an opcode is a label, or for an absolute mode a label with the mode's index. -/
structure TakesLabel (op : Opcode) (operand : List Char) : Prop where
  mem_table : op ∈ Opcode.table
  isLabel : Label.isLabel (splitIndex operand).1 = true
  mode : op.mode = .relative ∧ ',' ∉ operand ∨ op.mode = (splitIndex operand).2

theorem TakesLabel.ne_nil {op : Opcode} {operand : List Char} (h : TakesLabel op operand) :
    operand ≠ [] := by
  rintro rfl
  exact absurd h.isLabel (by decide)

/-- The values of a list are read from its pieces, one from each. -/
theorem forall₂_of_values {texts : List (List Char)} {bytes : List UInt8}
    (h : values texts = .ok bytes) : List.Forall₂
      (fun text byte => AddressingMode.zeroPage.parse? text = some [byte]) texts bytes := by
  induction texts generalizing bytes with
  | nil =>
    cases h
    exact .nil
  | cons text rest ih =>
    unfold values at h
    split at h
    · cases h
    · next first hfirst =>
      obtain ⟨byte, rfl⟩ := List.length_eq_one_iff.mp (AddressingMode.length_of_parse? hfirst)
      cases hr : values rest with
      | error problem =>
        rw [hr] at h
        cases h
      | ok others =>
        rw [hr] at h
        cases h
        exact .cons hfirst (ih hr)

/-- A directive stores the values that it lists. -/
theorem of_ofByteDirective {operand : List Char} {position : UInt16} {line : Nat} {s : Statement}
    (h : ofByteDirective operand position line = .ok s) :
    ∃ bytes, values (pieces ',' operand) = .ok bytes ∧ s = data bytes position line := by
  unfold ofByteDirective at h
  split at h
  · cases h
  · cases hv : values (pieces ',' operand) with
    | error problem =>
      rw [hv] at h
      cases h
    | ok bytes =>
      rw [hv] at h
      cases h
      exact ⟨bytes, rfl, rfl⟩

/-- Only an instruction makes a statement with a label. -/
theorem exists_encode_eq_ofInstruction {mnemonic operand : List Char} {position : UInt16}
    {line : Nat} {s : Statement} (h : encode mnemonic operand position line = .ok s)
    (hl : s.label ≠ none) :
    ∃ i, Instruction.ofMnemonic? mnemonic = some i ∧ encode mnemonic = ofInstruction i := by
  unfold encode at h
  split at h
  · split at h
    · obtain ⟨bytes, -, rfl⟩ := of_ofByteDirective h
      exact absurd rfl hl
    · cases h
  · next hdot =>
    split at h
    · cases h
    · next i hi =>
      refine ⟨i, hi, ?_⟩
      funext operand position line
      unfold encode
      split
      · exact absurd rfl (hdot _)
      · rw [hi]

theorem of_labelled? {i : Instruction} {operand name : List Char} {op : Opcode}
    (h : labelled? i operand = some (op, name)) : (splitIndex operand).1 = name ∧
      op.instruction = i ∧ TakesLabel op operand ∧ op.mode ≠ .relative := by
  unfold labelled? at h
  dsimp only at h
  split at h
  · next hlabel =>
    obtain ⟨op', hop, heq⟩ := Option.map_eq_some_iff.mp h
    cases heq
    obtain ⟨ht, hi, hm⟩ := Instruction.of_opcode? hop
    refine ⟨rfl, hi, ⟨ht, hlabel, Or.inr hm⟩, ?_⟩
    rw [hm]
    rcases mode_splitIndex operand with h | h | h <;> rw [h] <;> decide
  · cases h

/-- A branch has the offset that its operand spells out, or the one that leads to the address that the
operand spells out, or waits for a label. -/
theorem of_ofBranch {i : Instruction} {operand : List Char} {position : UInt16} {line : Nat}
    {s : Statement} (h : ofBranch i operand position line = .ok s) :
    ∃ op, i.opcode? .relative = some op ∧
      ((∃ offset, AddressingMode.relative.parse? operand = some [offset] ∧
          s = ⟨[op.code, offset], none, position, line⟩) ∨
        AddressingMode.relative.parse? operand = none ∧
          ((∃ target offset, AddressingMode.absolute.parse? operand = some target ∧
              branchOffset position (word (target.getD 0 0) (target.getD 1 0)) = .ok offset ∧
              s = ⟨[op.code, offset], none, position, line⟩) ∨
            AddressingMode.absolute.parse? operand = none ∧ Label.isLabel operand = true ∧
              s = ⟨[op.code, 0], some (operand, .relative), position, line⟩)) := by
  unfold ofBranch at h
  split at h
  · cases h
  · next op hop =>
    refine ⟨op, hop, ?_⟩
    split at h
    · next offset _ hrelative =>
      cases h
      obtain ⟨b, rfl⟩ := List.length_eq_one_iff.mp (AddressingMode.length_of_parse? hrelative)
      exact Or.inl ⟨b, hrelative, rfl⟩
    · next target hrelative habsolute =>
      cases ho : branchOffset position (word (target.getD 0 0) (target.getD 1 0)) with
      | error problem =>
        rw [ho] at h
        cases h
      | ok offset =>
        rw [ho] at h
        cases h
        exact Or.inr ⟨hrelative, Or.inl ⟨target, offset, habsolute, ho, rfl⟩⟩
    · next hrelative habsolute =>
      split at h
      · next hlabel =>
        cases h
        exact Or.inr ⟨hrelative, Or.inr ⟨habsolute, hlabel, rfl⟩⟩
      · cases h

/-- An instruction whose statement has a label waits for the label at every position. -/
theorem exists_takesLabel_ofInstruction {i : Instruction} {operand : List Char} {position : UInt16}
    {line : Nat} {s : Statement} (h : ofInstruction i operand position line = .ok s)
    (hl : s.label ≠ none) : ∃ op, op.instruction = i ∧ TakesLabel op operand ∧
      ofInstruction i operand = fun position line => .ok (waiting op operand position line) := by
  unfold ofInstruction at h
  split at h
  · next hb =>
    obtain ⟨op, hop, ⟨offset, -, rfl⟩ | ⟨hrelative, ⟨target, offset, -, -, rfl⟩ |
      ⟨habsolute, hlabel, rfl⟩⟩⟩ := of_ofBranch h
    · exact absurd rfl hl
    · exact absurd rfl hl
    · obtain ⟨ht, hi, hm⟩ := Instruction.of_opcode? hop
      obtain ⟨-, hcomma⟩ := not_mem_comma_of_isLabel hlabel
      refine ⟨op, hi, ⟨ht, ?_, Or.inl ⟨hm, hcomma⟩⟩, ?_⟩
      · rw [splitIndex_of_not_mem hcomma]
        exact hlabel
      · funext position line
        unfold ofInstruction ofBranch waiting
        rw [if_pos hb, if_pos hm]
        simp only [hop, hrelative, habsolute, hlabel, if_true]
  · next hb =>
    split at h
    · cases h
      exact absurd rfl hl
    · next op name hliteral hlabelled =>
      obtain ⟨hname, hi, htakes, hm⟩ := of_labelled? hlabelled
      refine ⟨op, hi, htakes, ?_⟩
      funext position line
      unfold ofInstruction waiting
      rw [if_neg hb, if_neg hm, hname]
      simp only [hliteral, hlabelled]
    · cases h

/-- **A statement with a label** waits for it, whatever its position and line are. -/
theorem exists_takesLabel {mnemonic operand : List Char} {position : UInt16} {line : Nat}
    {s : Statement} (h : encode mnemonic operand position line = .ok s) (hl : s.label ≠ none) :
    ∃ op, TakesLabel op operand ∧ s = waiting op operand position line ∧
      encode mnemonic = ofInstruction op.instruction ∧ encode mnemonic operand =
        fun position line => .ok (waiting op operand position line) := by
  obtain ⟨i, -, hi⟩ := exists_encode_eq_ofInstruction h hl
  rw [hi] at h
  obtain ⟨op, rfl, htakes, hwaiting⟩ := exists_takesLabel_ofInstruction h hl
  rw [hwaiting] at h
  cases h
  exact ⟨op, htakes, rfl, hi, by rw [hi, hwaiting]⟩

/-! ### Addresses in the place of labels -/

/-- A label operand with an address in the place of the label: the address in hexadecimal, and behind
it the index that the operand asks for. -/
def literalForm (operand : List Char) (target : UInt16) : List Char :=
  Hexadecimal.addressText target ++ (splitIndex operand).2.closing

theorem literalForm_eq_format (operand : List Char) (target : UInt16) :
    literalForm operand target = (splitIndex operand).2.format (littleEndian target) := by
  have hbytes : ∀ {mode : AddressingMode}, mode.operandSize = 2 →
      mode.operandBytes (littleEndian target) = littleEndian target := fun h =>
    AddressingMode.operandBytes_eq_self h.symm
  unfold literalForm AddressingMode.format
  rcases mode_splitIndex operand with h | h | h
  all_goals
    rw [h]
    dsimp only
    rw [hbytes rfl]
    rfl

/-- What an opcode with an address in the place of a label makes is what waits for the label once the
address is filled in. -/
theorem ofInstruction_literalForm {op : Opcode} {operand : List Char} (h : TakesLabel op operand)
    (target position : UInt16) (line : Nat) :
    ofInstruction op.instruction (literalForm operand target) position line =
      ((waiting op operand position line).patch target).map settled := by
  rcases h.mode with ⟨hm, hcomma⟩ | hm
  · have hbranch := (Instruction.isBranch_iff_of_mem_table h.mem_table).mpr hm
    have hform : literalForm operand target = Hexadecimal.addressText target := by
      unfold literalForm
      rw [splitIndex_of_not_mem hcomma]
      exact List.append_nil _
    unfold ofInstruction waiting
    rw [if_pos hbranch, if_pos hm, hform, ofBranch_addressText h.mem_table hm]
    unfold patch
    cases branchOffset position target <;> rfl
  · have hne : op.mode ≠ .relative := by
      rw [hm]
      rcases mode_splitIndex operand with h | h | h <;> rw [h] <;> decide
    have hl : (littleEndian target).length = op.mode.operandSize := by
      rw [hm]
      rcases mode_splitIndex operand with h | h | h <;> rw [h] <;> rfl
    rw [literalForm_eq_format]
    unfold waiting
    rw [← hm, ofInstruction_format h.mem_table hne hl, if_neg hne]
    rfl

/-- **An address in the place of a label** makes the statement that the label makes once the address
is filled in. -/
theorem encode_literalForm {mnemonic operand : List Char} {position : UInt16} {line : Nat}
    {s : Statement} (h : encode mnemonic operand position line = .ok s) (hl : s.label ≠ none)
    (target : UInt16) :
    encode mnemonic (literalForm operand target) position line = (s.patch target).map settled := by
  obtain ⟨op, htakes, rfl, hi, -⟩ := exists_takesLabel h hl
  rw [hi]
  exact ofInstruction_literalForm htakes target position line

/-- An address that cannot be filled in is out of a branch's reach. -/
theorem kind_of_patch_eq_error {s : Statement} {target : UInt16} {problem : Problem}
    (h : s.patch target = .error problem) : problem.kind = .range := by
  unfold patch at h
  split at h
  · cases h
  · cases h
  · cases ho : branchOffset s.position target with
    | error problem =>
      rw [ho] at h
      cases h
      exact kind_of_branchOffset_eq_error ho
    | ok offset =>
      rw [ho] at h
      cases h

/-- Filling in an address changes nothing but the bytes, and not their number. -/
theorem length_bytes_of_patch {s s' : Statement} {target : UInt16} (h : s.patch target = .ok s') :
    s'.bytes.length = s.bytes.length := by
  unfold patch at h
  split at h
  · cases h
    rfl
  · cases h
    simp
  · cases ho : branchOffset s.position target with
    | error problem =>
      rw [ho] at h
      cases h
    | ok offset =>
      rw [ho] at h
      cases h
      simp

end Statement

end Nmos6502
