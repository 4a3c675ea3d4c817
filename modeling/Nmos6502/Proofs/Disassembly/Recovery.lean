import Nmos6502.Proofs.Assembly.Placement
import Nmos6502.Proofs.Disassembly.RoundTrip

/-!
# Recovering the statements of a program

What a listing shows of an operand can be told before the program is listed (`Statement.canonical?`):
a literal in upper case, an address in the place of a label, and the target of a branch in whatever
form it was written. The bytes of a statement are those of one instruction that shows this operand
(`Statement.exists_decoded`).

An instruction in front of some bytes is the first item of their listing (`Item.ofBytes_append`), so the
items stay in step with the statements: the listing of a program without data has one item for each
statement, at its address and with its bytes (`Program.recovers_statements`).
-/

namespace Nmos6502

/-! ### Canonical operands -/

theorem toUpper_toUpper (c : Char) : c.toUpper.toUpper = c.toUpper := by
  refine toUpper_induction (p := fun _ d => d.toUpper = d) ?_ ?_ c
  · decide +kernel
  · exact fun _ hc => hc

namespace Statement

/-- The address that the operand of a branch at `position` names: the one that a raw offset leads to, a
target as it is written, or the one that a label stands for. -/
def target? (symbols : Symbols) (operand : List Char) (position : UInt16) : Option UInt16 :=
  match AddressingMode.relative.parse? operand, AddressingMode.absolute.parse? operand with
  | some offset, _ => some (branchTarget position (offset.getD 0 0))
  | none, some target => some (word (target.getD 0 0) (target.getD 1 0))
  | none, none => symbols.resolve? operand

/-- An operand as a listing shows it: the target of a branch, a literal in upper case, where the
accumulator is written out, or an address in the place of a label. -/
def canonical? (symbols : Symbols) (i : Instruction) (operand : List Char) (position : UInt16) :
    Option (List Char) :=
  if i.isBranch then (target? symbols operand position).map Hexadecimal.addressText
  else
    match literal? i (operand.map Char.toUpper) AddressingMode.all with
    | some (op, _) =>
      some (if op.mode = .accumulator ∧ operand = [] then ['A'] else operand.map Char.toUpper)
    | none => (symbols.resolve? (splitIndex operand).1).map (literalForm operand)

variable {symbols : Symbols} {i : Instruction} {operand : List Char} {position : UInt16} {line : Nat}
  {s : Statement}

/-- The offset of a branch leads to the address that its operand names. -/
theorem exists_offset_of_ofBranch (h : ofBranch i operand position line = .ok s)
    (hs : s.Resolves symbols) : ∃ op offset, i.opcode? .relative = some op ∧
      (s.filled symbols).bytes = [op.code, offset] ∧
      target? symbols operand position = some (branchTarget position offset) := by
  unfold target?
  obtain ⟨op, hop, ⟨offset, hrelative, rfl⟩ | ⟨hrelative, ⟨target, offset, habsolute, ho, rfl⟩ |
    ⟨habsolute, -, rfl⟩⟩⟩ := of_ofBranch h
  · rw [filled_of_label_eq_none rfl, hrelative]
    exact ⟨op, offset, hop, rfl, rfl⟩
  · rw [filled_of_label_eq_none rfl, hrelative, habsolute]
    exact ⟨op, offset, hop, rfl, by rw [branchOffset_eq_ok_iff.mp ho]⟩
  · obtain ⟨target, offset, ht, ho⟩ := hs.exists_offset rfl
    obtain ⟨-, hbytes⟩ := resolve_of_offset rfl ht ho
    rw [hbytes, hrelative, habsolute, ht]
    exact ⟨op, offset, hop, rfl, by rw [branchOffset_eq_ok_iff.mp ho]⟩

/-- A literal operand is written in upper case, or as the accumulator. -/
theorem format_of_literal? {op : Opcode} {bytes : List UInt8}
    (h : literal? i (operand.map Char.toUpper) AddressingMode.all = some (op, bytes)) :
    op.mode.format bytes =
      if op.mode = .accumulator ∧ operand = [] then ['A'] else operand.map Char.toUpper := by
  obtain ⟨-, hparse⟩ := literal?_eq_some_iff.mp h
  rw [AddressingMode.format_of_parse? hparse]
  by_cases hm : op.mode = .accumulator
  · rw [hm] at hparse
    simp only [AddressingMode.parse?, Option.ite_none_right_eq_some, List.map_eq_nil_iff] at hparse
    rcases hparse.1 with rfl | hA
    · simp [hm]
    · simp [hm, hA, show operand ≠ [] by rintro rfl; cases hA]
  · rw [if_neg hm, if_neg fun h => hm h.1, List.map_map]
    exact List.map_congr_left fun c _ => toUpper_toUpper c

/-- The operand bytes of an instruction that is no branch are those of its canonical operand. -/
theorem exists_bytes_of_ofInstruction (hb : i.isBranch = false)
    (h : ofInstruction i operand position line = .ok s) (hs : s.Resolves symbols) :
    ∃ op bytes, i.opcode? op.mode = some op ∧ bytes.length = op.mode.operandSize ∧
      (s.filled symbols).bytes = op.code :: bytes ∧
      canonical? symbols i operand position = some (op.mode.format bytes) := by
  unfold ofInstruction at h
  unfold canonical?
  rw [hb] at h ⊢
  simp only [Bool.false_eq_true, if_false] at h ⊢
  split at h
  · next op bytes _ hliteral =>
    cases h
    obtain ⟨hop, hparse⟩ := literal?_eq_some_iff.mp hliteral
    rw [filled_of_label_eq_none rfl, hliteral]
    refine ⟨_, _, hop, AddressingMode.length_of_parse? hparse, rfl, ?_⟩
    rw [format_of_literal? hliteral]
  · next op name hliteral hlabelled =>
    cases h
    obtain ⟨target, s', ht, hpatch, hfilled⟩ := hs.exists_target rfl
    cases hpatch
    obtain ⟨rfl, rfl, htakes, hmode⟩ := of_labelled? hlabelled
    obtain ⟨hrelative, -⟩ | hm := htakes.mode
    · exact absurd hrelative hmode
    refine ⟨op, littleEndian target, Instruction.opcode?_of_mem_table htakes.mem_table, ?_, ?_, ?_⟩
    · rw [hm]
      rcases mode_splitIndex operand with h | h | h <;> rw [h] <;> rfl
    · rw [hfilled]
      rfl
    · rw [hliteral]
      simp only [ht, Option.map_some, literalForm_eq_format, hm]
  · cases h

/-- **The instruction of a statement**: its bytes are those of one documented instruction, which shows
the operand in canonical form. -/
theorem exists_decoded (h : ofInstruction i operand position line = .ok s)
    (hs : s.Resolves symbols) : ∃ d : Decoded, (Item.instruction d).Sound ∧ d.address = position ∧
      d.opcode.instruction = i ∧ d.bytes = (s.filled symbols).bytes ∧
      canonical? symbols i operand position = some d.operandText := by
  cases hb : i.isBranch with
  | true =>
    unfold ofInstruction at h
    rw [if_pos hb] at h
    obtain ⟨op, offset, hop, hbytes, htarget⟩ := exists_offset_of_ofBranch h hs
    obtain ⟨ht, hi, hm⟩ := Instruction.of_opcode? hop
    refine ⟨⟨position, op, [offset]⟩, ⟨ht, by rw [hm]; rfl⟩, rfl, hi, hbytes.symm, ?_⟩
    unfold canonical?
    rw [if_pos hb, htarget]
    simp [Decoded.operandText, Decoded.target?, hm]
  | false =>
    obtain ⟨op, bytes, hop, hl, hbytes, hcanonical⟩ := exists_bytes_of_ofInstruction hb h hs
    obtain ⟨ht, hi, -⟩ := Instruction.of_opcode? hop
    have hm : op.mode ≠ .relative := by
      rw [ne_eq, ← Instruction.isBranch_iff_of_mem_table ht, hi, hb]
      exact Bool.false_ne_true
    refine ⟨⟨position, op, bytes⟩, ⟨ht, hl⟩, rfl, hi, hbytes.symm, ?_⟩
    rw [hcanonical]
    simp [Decoded.operandText, Decoded.target?, hm]

end Statement

/-! ### Items in step with statements -/

/-- A documented opcode is decoded from its code. -/
theorem Opcode.decode?_of_mem_table {op : Opcode} (h : op ∈ table) : decode? op.code = some op := by
  have hchain : (table.map Opcode.code).IsChain (· < ·) := by decide +kernel
  have hnodup : (table.map Opcode.code).Nodup :=
    (List.isChain_iff_pairwise.mp hchain).imp UInt8.ne_of_lt
  rw [decode?_eq_find?]
  cases hf : table.find? fun op' => op'.code == op.code with
  | none => simpa using List.find?_eq_none.mp hf op h
  | some found =>
    have hcode : found.code = op.code := by simpa using List.find?_some hf
    rw [List.inj_on_of_nodup_map hnodup (List.mem_of_find?_eq_some hf) h hcode]

namespace Item

theorem decode?_of_sound {d : Decoded} (h : (instruction d).Sound) (rest : List UInt8) :
    Decoded.decode? (d.bytes ++ rest) d.address = some d := by
  obtain ⟨address, op, operand⟩ := d
  obtain ⟨hop, hl⟩ := h
  dsimp only at hop hl
  unfold Decoded.decode?
  simp only [Decoded.bytes, List.cons_append, Opcode.decode?_of_mem_table hop, ← hl, List.take_left,
    if_true]

/-- An instruction in front of some bytes is the first item of their listing. -/
theorem ofBytes_append {d : Decoded} (h : (instruction d).Sound) (rest : List UInt8) :
    ofBytes (d.bytes ++ rest) d.address =
      instruction d :: ofBytes rest (d.address + UInt16.ofNat d.bytes.length) := by
  have hdecode := decode?_of_sound h rest
  unfold Decoded.bytes at hdecode
  have hfirst : first d.opcode.code (d.operand ++ rest) d.address = instruction d := by
    unfold first
    rw [← List.cons_append, hdecode]
  rw [Decoded.bytes, List.cons_append, ofBytes, hfirst]
  simp [bytes, Decoded.bytes]

/-- An item shows the statement of a line: it stands where the line stands, it has the line's bytes, and
its text is the mnemonic in upper case, followed by the operand in canonical form if there is one. -/
structure Shows (item : Item) (symbols : Symbols) (site : Site) : Prop where
  address : item.address.toNat = site.position
  bytes : item.bytes = site.code symbols
  text : ∃ mnemonic i operand, site.line.mnemonic = some mnemonic ∧
    Instruction.ofMnemonic? mnemonic = some i ∧
    Statement.canonical? symbols i site.line.operand item.address = some operand ∧
    item.text = mnemonic.map Char.toUpper ++ if operand = [] then [] else ' ' :: operand

variable {symbols : Symbols}

/-- The statement of an instruction is shown by an item. -/
theorem exists_shows {site : Site} {mnemonic : List Char} {s : Statement}
    (hm : site.line.mnemonic = some mnemonic) (hdot : ∀ name, mnemonic ≠ '.' :: name)
    (h : Statement.encode mnemonic site.line.operand s.position site.number = .ok s)
    (hposition : s.position.toNat = site.position) (hs : s.Resolves symbols)
    (hcode : site.code symbols = (s.filled symbols).bytes) :
    ∃ d : Decoded, (instruction d).Sound ∧ (instruction d).Shows symbols site := by
  unfold Statement.encode at h
  split at h
  · exact absurd rfl (hdot _)
  · split at h
    · cases h
    · next i hi =>
      obtain ⟨d, hsound, haddress, rfl, hbytes, hoperand⟩ := Statement.exists_decoded h hs
      refine ⟨d, hsound, ?_, ?_, mnemonic, d.opcode.instruction, d.operandText, hm, hi, ?_, ?_⟩
      · rw [← hposition, ← haddress]
        rfl
      · rw [hcode, ← hbytes]
        rfl
      · rw [← hoperand, ← haddress]
        rfl
      · rw [text_eq, ← Instruction.mnemonic_of_ofMnemonic? hi]
        rfl

/-- The items of some lines without data are those of their statements, one for each. -/
theorem forall₂_shows {position number : Nat} {all : List Line}
    (hlength : ∀ site ∈ Site.ofLines position number all,
      (site.code symbols).length = site.line.width)
    (hshows : ∀ site ∈ Site.ofLines position number all, site.line.mnemonic ≠ none →
      ∃ d : Decoded, (instruction d).Sound ∧ (instruction d).Shows symbols site) :
    List.Forall₂ (fun site item => item.Shows symbols site)
      ((Site.ofLines position number all).filter fun site => site.line.mnemonic.isSome)
      (ofBytes ((Site.ofLines position number all).flatMap (Site.code symbols))
        (UInt16.ofNat position)) := by
  induction all generalizing position number with
  | nil =>
    rw [Site.ofLines, List.filter_nil, List.flatMap_nil, ofBytes]
    exact List.Forall₂.nil
  | cons line rest ih =>
    rw [Site.ofLines, List.forall_mem_cons] at hlength hshows
    obtain ⟨hwidth, hlength⟩ := hlength
    obtain ⟨hfirst, hshows⟩ := hshows
    have hrest := ih hlength hshows
    rw [Site.ofLines, List.flatMap_cons]
    by_cases hm : line.mnemonic = none
    · have hcode : (⟨line, position, number⟩ : Site).code symbols = [] := by
        simp [Site.code, Site.statement?, hm]
      rw [hcode] at hwidth ⊢
      rw [List.filter_cons_of_neg (by simp [hm]), List.nil_append]
      rw [← show 0 = line.width from hwidth, Nat.add_zero] at hrest ⊢
      exact hrest
    · obtain ⟨d, hsound, hitem⟩ := hfirst hm
      have haddress : UInt16.ofNat position = d.address := by
        rw [← @UInt16.ofNat_toNat d.address]
        exact congrArg UInt16.ofNat hitem.address.symm
      have hbytes : d.bytes = (⟨line, position, number⟩ : Site).code symbols := hitem.bytes
      have hnext : UInt16.ofNat (position + line.width) =
          d.address + UInt16.ofNat d.bytes.length := by
        rw [UInt16.ofNat_add, haddress, hbytes, hwidth]
      rw [List.filter_cons_of_pos (by simpa [Option.isSome_iff_ne_none] using hm), ← hbytes,
        haddress, ofBytes_append hsound, ← hnext]
      exact List.Forall₂.cons hitem hrest

end Item

/-! ### Programs -/

/-- The line stores data: it has the directive `.byte`, its letters in either case. -/
def Line.IsData (line : Line) : Prop :=
  line.mnemonic.map (List.map Char.toLower) = some ['.', 'b', 'y', 't', 'e']

instance (line : Line) : Decidable line.IsData :=
  inferInstanceAs (Decidable (_ = _))

/-- A statement that encodes is data or an instruction. -/
theorem Line.isData_of_encode {line : Line} {name : List Char} {position : UInt16} {number : Nat}
    {s : Statement} (hm : line.mnemonic = some ('.' :: name))
    (h : Statement.encode ('.' :: name) line.operand position number = .ok s) : line.IsData := by
  have hdirective : Statement.encode ('.' :: name) line.operand position number =
      if name.map Char.toLower = ['b', 'y', 't', 'e'] then
        Statement.ofByteDirective line.operand position number
      else .error (.unknownDirective ('.' :: name)) := rfl
  rw [hdirective] at h
  split at h
  · next hname =>
    unfold Line.IsData
    rw [hm, Option.map_some, List.map_cons, hname]
    rfl
  · cases h

namespace Program

/-- **The statements of a program are recovered** from its bytes, if it stores no data: the listing has
one item for each statement, in their order, which shows the statement at its address. -/
theorem recovers_statements {origin : UInt16} {source : List Char} {program : Program}
    (h : assemble origin source = .ok program)
    (hdata : ∀ line ∈ (lines source).map Line.parse, ¬ line.IsData) :
    List.Forall₂ (fun site item => item.Shows program.symbols site)
      ((program.sites ((lines source).map Line.parse)).filter fun site =>
        site.line.mnemonic.isSome)
      (Item.ofBytes program.bytes origin) := by
  obtain ⟨rfl, hassembled⟩ := assemble_eq_ok_iff_isAssembled.mp h
  have hlaid := hassembled.laidOut
  have hshows : ∀ site ∈ program.sites ((lines source).map Line.parse),
      site.line.mnemonic ≠ none → ∃ d : Decoded, (Item.instruction d).Sound ∧
        (Item.instruction d).Shows program.symbols site := by
    intro site hsite hne
    obtain ⟨mnemonic, hm⟩ := Option.ne_none_iff_exists'.mp hne
    obtain ⟨s, hencode, hposition, hresolves, hcode⟩ := hlaid.statement hsite hm
    have hline : site.line ∈ (lines source).map Line.parse := by
      rw [← Site.map_line_ofLines program.origin.toNat 1 ((lines source).map Line.parse)]
      exact List.mem_map_of_mem hsite
    have hdot : ∀ name, mnemonic ≠ '.' :: name := by
      rintro name rfl
      exact hdata site.line hline (Line.isData_of_encode hm hencode)
    exact Item.exists_shows hm hdot hencode hposition hresolves hcode
  have hall := Item.forall₂_shows (fun _ => hlaid.length_code) hshows
  rw [UInt16.ofNat_toNat] at hall
  rw [hlaid.bytes]
  exact hall

/-- A literal in lower case, an accumulator that is left out, a label with an index, and the three forms
of a branch, as they come back. -/
theorem recovers_statements_of_every_form :
    ∃ program, assemble 0x0600
        "go: lda #$0a\n lsr\n STA end , x\n bne go\n beq $02\n\n BCS $0600\nend: nop".toList =
          .ok program ∧
      (Item.ofBytes program.bytes 0x0600).map Item.text =
        ["LDA #$0A".toList, "LSR A".toList, "STA $060C,X".toList, "BNE $0600".toList,
          "BEQ $060C".toList, "BCS $0600".toList, "NOP".toList] ∧
      List.Forall₂ (fun site item => item.Shows program.symbols site)
        ((program.sites ((lines
          "go: lda #$0a\n lsr\n STA end , x\n bne go\n beq $02\n\n BCS $0600\nend: nop".toList).map
            Line.parse)).filter fun site => site.line.mnemonic.isSome)
        (Item.ofBytes program.bytes 0x0600) := by
  have h : assemble 0x0600
      "go: lda #$0a\n lsr\n STA end , x\n bne go\n beq $02\n\n BCS $0600\nend: nop".toList =
        .ok ⟨0x0600, [0xA9, 0x0A, 0x4A, 0x9D, 0x0C, 0x06, 0xD0, 0xF8, 0xF0, 0x02, 0xB0, 0xF4, 0xEA],
          ⟨[⟨"go".toList, 0x0600, 1⟩, ⟨"end".toList, 0x060C, 8⟩]⟩⟩ := by decide +kernel
  exact ⟨_, h, by decide +kernel, recovers_statements h (by decide +kernel)⟩

end Program

end Nmos6502
