import Nmos6502.Assembly.Program
import Nmos6502.Disassembly.Item
import Nmos6502.Proofs.Assembly.BranchReach
import Nmos6502.Proofs.Assembly.LineParts
import Nmos6502.Proofs.Assembly.LiteralOperands

/-!
# Assembling a listing

The text of an item is a word and an argument (`Item.text_eq`), and as a line of a program it encodes
to the bytes of the item at the item's address (`Item.encode_text`): what a mode writes it reads back,
and the offset of a branch is found again from the address that it leads to. Nothing in a listing
depends on a label, so the second pass only puts the bytes end to end
(`Statement.link_of_unlabelled`).
A listing therefore assembles to the bytes that it shows, as long as they fit below the end of memory
(`Program.assemble_listing`).
-/

namespace Nmos6502

namespace Item

/-! ### Items as lines -/

/-- The opcode of an item is documented, and its operand is whole. -/
def Sound : Item → Prop
  | instruction d => d.opcode ∈ Opcode.table ∧ d.operand.length = d.opcode.mode.operandSize
  | data _ _ => True

theorem sound_first (byte : UInt8) (rest : List UInt8) (address : UInt16) :
    (first byte rest address).Sound := by
  unfold first
  split
  · next d hd =>
    unfold Decoded.decode? at hd
    dsimp only at hd
    split at hd
    · cases hd
    · next op hop =>
      split at hd
      · next hl =>
        cases hd
        exact ⟨Opcode.mem_table_of_decode? hop, hl⟩
      · cases hd
  · trivial

theorem address_first (byte : UInt8) (rest : List UInt8) (address : UInt16) :
    (first byte rest address).address = address := by
  unfold first
  split
  · next d hd => exact (Decoded.bytes_append_of_decode? hd).2
  · rfl

/-- The name of the instruction or directive that an item shows. -/
def word : Item → List Char
  | instruction d => d.opcode.instruction.mnemonic
  | data _ _ => ['.', 'b', 'y', 't', 'e']

/-- The operand that an item shows. -/
def argument : Item → List Char
  | instruction d => d.operandText
  | data _ byte => Hexadecimal.byteText byte

theorem text_eq (item : Item) :
    item.text = item.word ++ if item.argument = [] then [] else ' ' :: item.argument := by
  cases item with
  | instruction d =>
    unfold text word argument Decoded.text
    dsimp only
    split
    · next h => rw [if_pos h, List.append_nil]
    · next h => rw [if_neg h]
  | data address byte => rfl

theorem isPlain_word (item : Item) : item.word ≠ [] ∧ ∀ c ∈ item.word, Line.IsPlain c := by
  have hall : ∀ i ∈ Instruction.all, i.mnemonic ≠ [] ∧
      (i.mnemonic.all fun c => decide (Line.IsPlain c)) = true := by decide
  cases item with
  | instruction d =>
    obtain ⟨hne, hplain⟩ := hall d.opcode.instruction (Instruction.mem_all _)
    exact ⟨hne, forall_mem_of_all hplain⟩
  | data address byte => exact ⟨List.cons_ne_nil _ _, forall_mem_of_all rfl⟩

/-- The operand that an item shows is the written form of some bytes. -/
theorem exists_argument_eq_format (item : Item) :
    ∃ mode : AddressingMode, ∃ bytes, item.argument = mode.format bytes := by
  cases item with
  | instruction d =>
    unfold argument Decoded.operandText
    dsimp only
    split
    · exact ⟨_, _, Hexadecimal.addressText_eq_format _⟩
    · exact ⟨_, _, rfl⟩
  | data address byte => exact ⟨_, _, Hexadecimal.byteText_eq_format byte⟩

theorem isPlain_argument (item : Item) : ∀ c ∈ item.argument, Line.IsPlain c := by
  obtain ⟨mode, bytes, h⟩ := item.exists_argument_eq_format
  intro c hc
  rw [h] at hc
  exact AddressingMode.isPlain_of_mem_format hc

/-- **The text of an item is a line** with the item's word and argument, and without a label. -/
theorem parse_text (item : Item) : Line.parse item.text = ⟨none, some item.word, item.argument⟩ := by
  obtain ⟨hne, hword⟩ := item.isPlain_word
  have harg := item.isPlain_argument
  have hspace : isBlank ' ' = true := rfl
  have hcut : Line.IsCut [] item.word
      (if item.argument = [] then [] else ' ' :: item.argument) := by
    refine ⟨List.forall_mem_nil _, hne, fun c hc => ?_, ?_⟩
    · simp [isInk, (hword c hc).1]
    · split
      · rfl
      · exact List.takeWhile_cons_of_neg (by simp [isInk, hspace])
  have hplain : ∀ c ∈ item.word ++ (if item.argument = [] then [] else ' ' :: item.argument),
      c ≠ ':' ∧ c ≠ ';' := by
    intro c hc
    rcases List.mem_append.mp hc with hc | hc
    · exact (hword c hc).2
    · split at hc
      · cases hc
      · rcases List.mem_cons.mp hc with rfl | hc
        · decide
        · exact (harg c hc).2
  rw [text_eq, Line.parse_of_isCut hcut hplain]
  split
  · next h => rw [h]; rfl
  · have hsqueeze : squeeze (' ' :: item.argument) = item.argument := by
      rw [← List.singleton_append, squeeze_append, squeeze_eq_self fun c hc => (harg c hc).1]
      rfl
    rw [hsqueeze]

end Item

/-! ### Items as statements -/

namespace Statement

theorem encode_byteText (byte : UInt8) (position : UInt16) (line : Nat) :
    encode ['.', 'b', 'y', 't', 'e'] (Hexadecimal.byteText byte) position line =
      .ok (data [byte] position line) := by
  have hcomma : ',' ∉ Hexadecimal.byteText byte := fun hc => by
    have hwritten : ',' ∉ '$' :: Hexadecimal.written := by decide
    rcases List.mem_cons.mp hc with hc | hc
    · cases hc
    · have hbytes : ',' ∈ Hexadecimal.ofBytes [byte] := by simpa [Hexadecimal.ofBytes] using hc
      exact hwritten (List.mem_cons_of_mem _ (Hexadecimal.mem_written_of_mem_ofBytes hbytes))
  have hvalue : AddressingMode.zeroPage.parse? (Hexadecimal.byteText byte) = some [byte] := by
    rw [Hexadecimal.byteText_eq_format]
    exact AddressingMode.parse?_format rfl
  have hdirective : encode ['.', 'b', 'y', 't', 'e'] (Hexadecimal.byteText byte) position line =
      ofByteDirective (Hexadecimal.byteText byte) position line := rfl
  rw [hdirective]
  unfold ofByteDirective
  rw [if_neg (by simp [Hexadecimal.byteText]), pieces_of_not_mem hcomma]
  simp only [values, hvalue]
  rfl

end Statement

namespace Item

/-- **The statement of an item** has the item's bytes, and depends on no label. -/
theorem encode_text {item : Item} (h : item.Sound) (line : Nat) :
    Statement.encode item.word item.argument item.address line =
      .ok (.data item.bytes item.address line) := by
  cases item with
  | data address byte => exact Statement.encode_byteText byte address line
  | instruction d =>
    obtain ⟨address, op, operand⟩ := d
    obtain ⟨hop, hl⟩ := h
    change Statement.encode op.instruction.mnemonic _ _ _ = _
    rw [Statement.encode_mnemonic]
    by_cases hm : op.mode = .relative
    · have hbranch := (Instruction.isBranch_iff_of_mem_table hop).mpr hm
      obtain ⟨offset, rfl⟩ : ∃ offset, operand = [offset] := by
        rw [← List.length_eq_one_iff, hl]
        change op.mode.operandSize = 1
        rw [hm]
        rfl
      have htext : (instruction ⟨address, op, [offset]⟩).argument =
          Hexadecimal.addressText (branchTarget address offset) := by
        simp [argument, Decoded.operandText, Decoded.target?, hm]
      have hoffset : branchOffset address (branchTarget address offset) = .ok offset :=
        branchOffset_eq_ok_iff.mpr rfl
      unfold Statement.ofInstruction
      rw [if_pos hbranch, htext, Statement.ofBranch_addressText hop hm]
      change Except.map _ (branchOffset address _) = _
      rw [hoffset]
      rfl
    · have htext : (instruction ⟨address, op, operand⟩).argument = op.mode.format operand := by
        simp [argument, Decoded.operandText, Decoded.target?, hm]
      rw [htext]
      exact Statement.ofInstruction_format hop hm hl address line

theorem placeStatement_text {item : Item} (h : item.Sound) {position : Nat}
    (hp : item.address = UInt16.ofNat position) (number : Nat) :
    Layout.placeStatement position number (Line.parse item.text) =
      if position + item.bytes.length ≤ memorySize then
        .ok [.data item.bytes item.address number]
      else .error .programPastEnd := by
  have hencode := encode_text h number
  rw [parse_text]
  unfold Layout.placeStatement
  simp only [← hp, hencode]
  rfl

theorem ofLine_text {item : Item} (h : item.Sound) {position : Nat}
    (hp : item.address = UInt16.ofNat position) (symbols : Symbols) (number : Nat) :
    Layout.ofLine symbols position number (Line.parse item.text) =
      if position + item.bytes.length ≤ memorySize then
        .ok ⟨[.data item.bytes item.address number], symbols, position + item.bytes.length⟩
      else .error .programPastEnd := by
  have hlabel : (Line.parse item.text).label = none := by rw [parse_text]
  have hplace : Layout.placeLabel symbols position number none = .ok symbols := rfl
  have hsize : Layout.size [.data item.bytes item.address number] = item.bytes.length := by
    simp [Layout.size, Statement.data]
  unfold Layout.ofLine
  rw [placeStatement_text h hp, hlabel, hplace]
  split_ifs
  · rw [← hsize]
  · rfl

end Item

/-! ### Listings as programs -/

namespace Layout

/-- The first pass over a listing, which begins at `position`, finds the bytes of its items as long
as they fit. -/
theorem ofLines_listing (bytes : List UInt8) (origin : UInt16) {position : Nat}
    (hp : origin = UInt16.ofNat position) (symbols : Symbols) (number : Nat) :
    (position + bytes.length ≤ memorySize → ∃ statements,
      ofLines symbols position number ((Item.ofBytes bytes origin).map Item.text) =
        .ok ⟨statements, symbols, position + bytes.length⟩ ∧
      statements.flatMap Statement.bytes = bytes ∧ ∀ s ∈ statements, s.label = none) ∧
    (position ≤ memorySize → memorySize < position + bytes.length → ∃ e,
      ofLines symbols position number ((Item.ofBytes bytes origin).map Item.text) = .error e ∧
        e.problem.kind = .range) := by
  induction bytes, origin using Item.ofBytes.induct generalizing position number with
  | case1 =>
    rw [Item.ofBytes]
    refine ⟨fun _ => ⟨[], rfl, rfl, List.forall_mem_nil _⟩, fun h h' => ?_⟩
    exact absurd h' (Nat.not_lt.mpr h)
  | case2 byte rest origin item =>
    rename_i ih
    have hitems : Item.ofBytes (byte :: rest) origin =
        item :: Item.ofBytes (rest.drop (item.bytes.length - 1))
          (origin + UInt16.ofNat item.bytes.length) := by rw [Item.ofBytes]
    have hsound : item.Sound := Item.sound_first byte rest origin
    have haddress : item.address = UInt16.ofNat position :=
      (Item.address_first byte rest origin).trans hp
    have hcover : item.bytes ++ rest.drop (item.bytes.length - 1) = byte :: rest :=
      Item.bytes_first_append byte rest origin
    clear_value item
    have hline := Item.ofLine_text hsound haddress symbols number
    have hnext : origin + UInt16.ofNat item.bytes.length =
        UInt16.ofNat (position + item.bytes.length) := by rw [hp, UInt16.ofNat_add]
    obtain ⟨ihfit, ihlong⟩ := ih hnext (number + 1)
    rw [hitems, ← hcover, List.length_append, List.map_cons]
    unfold ofLines
    rw [hline]
    refine ⟨fun hfit => ?_, fun _ hlong => ?_⟩
    · obtain ⟨statements, hlines, hbytes, hlabel⟩ := ihfit (by omega)
      rw [if_pos (by omega)]
      refine ⟨.data item.bytes item.address number :: statements, ?_, ?_, ?_⟩
      · simp only [hlines, List.singleton_append, Nat.add_assoc]
      · rw [List.flatMap_cons, hbytes]
        rfl
      · exact List.forall_mem_cons.mpr ⟨rfl, hlabel⟩
    · split_ifs with hfit
      · obtain ⟨e, hlines, hkind⟩ := ihlong hfit (by omega)
        exact ⟨e, by simp only [hlines], hkind⟩
      · exact ⟨_, rfl, rfl⟩

end Layout

namespace Item

theorem lines_source (items : List Item) : lines (source items) = items.map text := by
  refine lines_intercalate fun t ht => ?_
  obtain ⟨item, -, rfl⟩ := List.mem_map.mp ht
  obtain ⟨hne, hword⟩ := item.isPlain_word
  have hbreak : ∀ c ∈ item.text, c ≠ '\n' ∧ c ≠ '\r' := by
    have hplain : ∀ c, Line.IsPlain c → c ≠ '\n' ∧ c ≠ '\r' := fun c hc =>
      ⟨(ne_of_isBlank rfl hc.1).symm, (ne_of_isBlank rfl hc.1).symm⟩
    intro c hc
    rw [text_eq] at hc
    rcases List.mem_append.mp hc with hc | hc
    · exact hplain c (hword c hc)
    · split at hc
      · cases hc
      · rcases List.mem_cons.mp hc with rfl | hc
        · decide
        · exact hplain c (item.isPlain_argument c hc)
  refine ⟨?_, fun h => (hbreak _ h).1 rfl, fun h => (hbreak _ h).2 rfl⟩
  rw [text_eq]
  exact List.append_ne_nil_of_left_ne_nil hne _

end Item

/-- **A listing assembles to the bytes that it shows**, at the same origin and without any symbol, if
they fit below the end of memory; otherwise it is refused for its range. -/
theorem Program.assemble_listing (bytes : List UInt8) (origin : UInt16) :
    (origin.toNat + bytes.length ≤ memorySize →
      assemble origin (Item.source (Item.ofBytes bytes origin)) = .ok ⟨origin, bytes, .empty⟩) ∧
    (memorySize < origin.toNat + bytes.length → ∃ e,
      assemble origin (Item.source (Item.ofBytes bytes origin)) = .error e ∧
        e.problem.kind = .range) := by
  have horigin := origin.toNat_lt
  obtain ⟨hfit, hlong⟩ := Layout.ofLines_listing bytes origin UInt16.ofNat_toNat.symm .empty 1
  unfold assemble
  rw [Item.lines_source]
  refine ⟨fun h => ?_, fun h => ?_⟩
  · obtain ⟨statements, hlines, hbytes, hlabel⟩ := hfit h
    simp only [hlines, Statement.link_of_unlabelled _ _ hlabel, hbytes]
    rfl
  · obtain ⟨e, hlines, hkind⟩ := hlong (Nat.le_of_lt horigin) h
    exact ⟨e, by simp only [hlines], hkind⟩

/-- A branch to below address zero, a byte that is no opcode and an instruction that is cut short; and
an instruction across the end of memory. -/
theorem Program.assemble_listing_at_the_edges :
    assemble 0 (Item.source (Item.ofBytes [0xF0, 0x80, 0x02, 0xAD] 0)) =
      .ok ⟨0, [0xF0, 0x80, 0x02, 0xAD], .empty⟩ ∧
    ∃ e, assemble 0xFFFE (Item.source (Item.ofBytes [0xAD, 0x00, 0x02] 0xFFFE)) = .error e ∧
      e.problem.kind = .range :=
  ⟨(assemble_listing [0xF0, 0x80, 0x02, 0xAD] 0).1 (by decide),
    (assemble_listing [0xAD, 0x00, 0x02] 0xFFFE).2 (by decide)⟩

end Nmos6502
