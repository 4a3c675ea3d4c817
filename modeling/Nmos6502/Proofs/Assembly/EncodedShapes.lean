import Nmos6502.Proofs.Assembly.Patching
import Nmos6502.Proofs.Assembly.Unambiguity

/-!
# The shapes of encoded statements

An encoded statement is a list of values, an opcode of the table with the operand bytes of its mode, or
an opcode with zeros where the address of a label is still to come (`Statement.HasShape`). The encoders
are looked at one by one (`Statement.isInShape_ofBranch`, `Statement.isInShape_ofInstruction`,
`Statement.isInShape_ofByteDirective`).

In any of these shapes there is room for the address of the label (`Statement.IsInShape.hasRoom`). That
is all that filling it in asks for, however often it is done (`Statement.HasRoom.takesAddresses`).
-/

namespace Nmos6502

namespace Statement

variable {i : Instruction} {operand : List Char} {position : UInt16} {line : Nat} {s : Statement}

/-- The bytes and the label of a statement that an operand makes, of an instruction or, if there is
none, of a directive. -/
inductive HasShape (operand : List Char) :
    Option Instruction → List UInt8 → Option (List Char × Reference) → Prop
  /-- One value for each piece of the operand. -/
  | list {values : List UInt8} (read : List.Forall₂
      (fun piece value => AddressingMode.zeroPage.parse? piece = some [value])
      (pieces ',' operand) values) : HasShape operand none values none
  /-- An opcode with as many bytes as its mode takes. -/
  | literal {op : Opcode} {bytes : List UInt8} (listed : op ∈ Opcode.table)
    (size : bytes.length = op.mode.operandSize) :
    HasShape operand (some op.instruction) (op.code :: bytes) none
  /-- An opcode that waits for the address of a label, which may be indexed. -/
  | address {op : Opcode} {name index : List Char} (listed : op ∈ Opcode.table)
    (mode : op.mode = .absolute ∨ op.mode = .absoluteX ∨ op.mode = .absoluteY)
    (split : operand = name ++ index) (indexed : index ∈ op.mode.indices)
    (label : Label.isLabel name = true) :
    HasShape operand (some op.instruction) [op.code, 0, 0] (some (name, .absolute))
  /-- A branch that waits for the distance to a label. -/
  | distance {op : Opcode} (listed : op ∈ Opcode.table)
    (branch : op.instruction.isBranch = true) (mode : op.mode = .relative)
    (label : Label.isLabel operand = true) :
    HasShape operand (some op.instruction) [op.code, 0] (some (operand, .relative))

/-- A statement stands where it was put and has one of the shapes. -/
structure IsInShape (s : Statement) (i : Option Instruction) (operand : List Char)
    (position : UInt16) (line : Nat) : Prop where
  position_eq : s.position = position
  line_eq : s.line = line
  shape : HasShape operand i s.bytes s.label

/-! ### The encoders -/

theorem isInShape_ofBranch (h : ofBranch i operand position line = .ok s) :
    s.IsInShape (some i) operand position line := by
  obtain ⟨op, hop, hs⟩ := of_ofBranch h
  obtain ⟨hlisted, rfl, hm⟩ := Instruction.of_opcode? hop
  have hsize : ∀ offset : UInt8, [offset].length = op.mode.operandSize := fun _ => by
    rw [hm]
    rfl
  obtain ⟨offset, -, rfl⟩ | ⟨-, ⟨target, offset, -, -, rfl⟩ | ⟨-, hlabel, rfl⟩⟩ := hs
  · exact ⟨rfl, rfl, .literal hlisted (hsize offset)⟩
  · exact ⟨rfl, rfl, .literal hlisted (hsize offset)⟩
  · exact ⟨rfl, rfl, .distance hlisted ((Instruction.isBranch_iff_of_mem_table hlisted).mpr hm) hm
      hlabel⟩

theorem isInShape_ofInstruction (h : ofInstruction i operand position line = .ok s) :
    s.IsInShape (some i) operand position line := by
  unfold ofInstruction at h
  split at h
  · exact isInShape_ofBranch h
  · split at h
    · next op bytes _ hliteral =>
      cases h
      obtain ⟨hop, hbytes⟩ := literal?_eq_some_iff.mp hliteral
      obtain ⟨hlisted, rfl, -⟩ := Instruction.of_opcode? hop
      exact ⟨rfl, rfl, .literal hlisted (AddressingMode.length_of_parse? hbytes)⟩
    · next op name _ hlabelled =>
      cases h
      obtain ⟨rfl, rfl, htakes, hm⟩ := of_labelled? hlabelled
      obtain ⟨index, hindex, hoperand⟩ := splitIndex_eq_append operand
      have hmode : op.mode = (splitIndex operand).2 :=
        htakes.mode.resolve_left fun hbranch => hm hbranch.1
      refine ⟨rfl, rfl, .address htakes.mem_table ?_ hoperand ?_ htakes.isLabel⟩
      · rw [hmode]
        exact mode_splitIndex operand
      · rwa [hmode]
    · cases h

theorem isInShape_ofByteDirective (h : ofByteDirective operand position line = .ok s) :
    s.IsInShape none operand position line := by
  obtain ⟨bytes, hv, rfl⟩ := of_ofByteDirective h
  exact ⟨rfl, rfl, .list (forall₂_of_values hv)⟩

/-! ### Room for an address -/

/-- Whatever its shape is, a statement has room for the address of its label. -/
theorem IsInShape.hasRoom {i : Option Instruction} (h : s.IsInShape i operand position line) :
    s.HasRoom := by
  intro name kind hl
  have hshape := h.shape
  rw [hl] at hshape
  generalize s.bytes = bytes at hshape
  cases hshape with
  | address => exact Nat.lt_succ_self 2
  | distance => exact Nat.lt_succ_self 1

/-- The address of a statement's label can be filled in, however often. -/
structure TakesAddresses (s : Statement) : Prop where
  /-- In place, no index is out of bounds, and a failure leaves the statement as it was. -/
  inPlace : ∀ target, patchInPlace target s =
    match s.patch target with
    | .ok s' => .ok () s'
    | .error problem => .error (.refused problem) s
  /-- Nothing changes but the bytes behind the opcode. -/
  keeps : ∀ target s', s.patch target = .ok s' → s.SameButOperand s'
  /-- What is filled in later replaces what was filled in before. -/
  twice : ∀ first second s', s.patch first = .ok s' → s'.patch second = s.patch second
  /-- The last attempt that succeeds decides. -/
  attempts : ∀ targets : List UInt16, targets.foldl attempt s =
    (targets.filterMap fun target => (s.patch target).toOption).getLast?.getD s

theorem HasRoom.takesAddresses (h : s.HasRoom) : s.TakesAddresses where
  inPlace := patchInPlace_eq h
  keeps _ _ := sameButOperand_of_patch
  twice _ second _ hfirst := patch_of_patch hfirst second
  attempts := foldl_attempt h

/-- A statement that one of the encoders makes, for an instruction or for the directive. -/
inductive IsEncoded (operand : List Char) (position : UInt16) (line : Nat) :
    Option Instruction → Statement → Prop
  | instruction {i : Instruction} {s : Statement}
    (h : ofInstruction i operand position line = .ok s) : IsEncoded operand position line (some i) s
  | branch {i : Instruction} {s : Statement} (h : ofBranch i operand position line = .ok s) :
    IsEncoded operand position line (some i) s
  | byteDirective {s : Statement} (h : ofByteDirective operand position line = .ok s) :
    IsEncoded operand position line none s

theorem IsEncoded.isInShape {i : Option Instruction} (h : IsEncoded operand position line i s) :
    s.IsInShape i operand position line := by
  cases h with
  | instruction h => exact isInShape_ofInstruction h
  | branch h => exact isInShape_ofBranch h
  | byteDirective h => exact isInShape_ofByteDirective h

/-- **An encoded statement** keeps its place, has one of the shapes, and takes the address of its
label. -/
theorem encoded_in_shape {i : Option Instruction} (h : IsEncoded operand position line i s) :
    s.IsInShape i operand position line ∧ s.TakesAddresses :=
  ⟨h.isInShape, h.isInShape.hasRoom.takesAddresses⟩

/-- A branch waits for a label. An address in reach is filled in, and stays when the next one is out of
reach. -/
theorem encoded_in_shape_out_of_reach :
    IsEncoded "done".toList 0x0200 7 (some .bne)
      ⟨[0xD0, 0], some ("done".toList, .relative), 0x0200, 7⟩ ∧
    IsInShape ⟨[0xD0, 0], some ("done".toList, .relative), 0x0200, 7⟩ (some .bne) "done".toList
      0x0200 7 ∧
    [0x0210, 0x0400].foldl attempt ⟨[0xD0, 0], some ("done".toList, .relative), 0x0200, 7⟩ =
      ⟨[0xD0, 0x0E], some ("done".toList, .relative), 0x0200, 7⟩ := by
  have h : IsEncoded "done".toList 0x0200 7 (some .bne)
      ⟨[0xD0, 0], some ("done".toList, .relative), 0x0200, 7⟩ := .branch (by decide +kernel)
  obtain ⟨hshape, htakes⟩ := encoded_in_shape h
  refine ⟨h, hshape, ?_⟩
  rw [htakes.attempts]
  decide +kernel

end Statement

end Nmos6502
