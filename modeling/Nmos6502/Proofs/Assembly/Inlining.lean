import Nmos6502.Proofs.Assembly.LiteralOperands

/-!
# Writing addresses for labels

`Program.inline` puts an address into a source text wherever a statement waits for a label, and
leaves all the rest of the text as it is, the definitions of the labels included. Line by line the
new text has the parts of the old one but for these operands (`Program.map_parse_lines_inline`).

The first pass over the new text therefore places the same labels and finds statements of the same
size, with the bytes that the second pass over the old text puts in (`Layout.ofLines_withLiteral`).
So the two assemble to the same program (`Program.labels_mean_addresses`).
-/

namespace Nmos6502

namespace Statement

theorem label_waiting (op : Opcode) (operand : List Char) (position position' : UInt16)
    (line line' : Nat) :
    (waiting op operand position line).label = (waiting op operand position' line').label := by
  unfold waiting
  split <;> rfl

/-- The label of a statement depends on neither its position nor its line. -/
theorem label_eq_of_encode {mnemonic operand : List Char} {position position' : UInt16}
    {line line' : Nat} {s s' : Statement} (h : encode mnemonic operand position line = .ok s)
    (h' : encode mnemonic operand position' line' = .ok s') : s.label = s'.label := by
  by_cases hl : s.label = none
  · by_cases hl' : s'.label = none
    · rw [hl, hl']
    · obtain ⟨op, -, rfl, -, hwaiting⟩ := exists_takesLabel h' hl'
      rw [hwaiting] at h
      cases h
      exact label_waiting ..
  · obtain ⟨op, -, rfl, -, hwaiting⟩ := exists_takesLabel h hl
    rw [hwaiting] at h'
    cases h'
    exact label_waiting ..

end Statement

namespace Line

/-! ### Lines -/

/-- The label that the statement of a line waits for. -/
def reference? (line : Line) : Option (List Char) :=
  match line.mnemonic with
  | none => none
  | some mnemonic =>
    match Statement.encode mnemonic line.operand 0 0 with
    | .error _ => none
    | .ok s => s.label.map Prod.fst

/-- The operand with an address in the place of the label that the statement of a line waits for. -/
def literal? (symbols : Symbols) (line : Line) : Option (List Char) :=
  line.reference?.bind fun name =>
    (symbols.resolve? name).map (Statement.literalForm line.operand)

/-- The line with an address in the place of the label. -/
def withLiteral (symbols : Symbols) (line : Line) : Line :=
  match line.literal? symbols with
  | none => line
  | some operand => { line with operand := operand }

/-- The text of a line with an address in the place of the label. -/
def inlineText (symbols : Symbols) (text : List Char) : List Char :=
  match (parse text).literal? symbols with
  | none => text
  | some operand => replaceOperand text operand

variable {symbols : Symbols} {line : Line}

/-- The reference of a line is that of its statement, wherever the statement stands. -/
theorem reference?_eq {mnemonic : List Char} {position : UInt16} {number : Nat} {s : Statement}
    (hm : line.mnemonic = some mnemonic)
    (h : Statement.encode mnemonic line.operand position number = .ok s) :
    line.reference? = s.label.map Prod.fst := by
  unfold reference?
  simp only [hm]
  cases h0 : Statement.encode mnemonic line.operand 0 0 with
  | ok s' => rw [Statement.label_eq_of_encode h h0]
  | error problem =>
    by_cases hl : s.label = none
    · rw [hl]
      rfl
    · obtain ⟨op, -, -, -, hwaiting⟩ := Statement.exists_takesLabel h hl
      rw [hwaiting] at h0
      cases h0

theorem exists_mnemonic_of_reference? {name : List Char} (h : line.reference? = some name) :
    line.operand ≠ [] ∧ ∃ mnemonic, line.mnemonic = some mnemonic := by
  unfold reference? at h
  split at h
  · cases h
  · next mnemonic hm =>
    refine ⟨?_, mnemonic, hm⟩
    split at h
    · cases h
    · next s hs =>
      have hl : s.label ≠ none := by
        intro hl
        rw [hl] at h
        cases h
      obtain ⟨op, htakes, -⟩ := Statement.exists_takesLabel hs hl
      exact htakes.ne_nil

theorem of_literal? {operand : List Char} (h : line.literal? symbols = some operand) :
    (∃ name, line.reference? = some name) ∧ ∀ c ∈ operand, IsPlain c := by
  obtain ⟨name, hname, hoperand⟩ := Option.bind_eq_some_iff.mp h
  obtain ⟨target, -, rfl⟩ := Option.map_eq_some_iff.mp hoperand
  rw [Statement.literalForm_eq_format]
  exact ⟨⟨name, hname⟩, fun c hc => AddressingMode.isPlain_of_mem_format hc⟩

theorem withLiteral_of_literal?_eq_none (h : line.literal? symbols = none) :
    line.withLiteral symbols = line := by
  unfold withLiteral
  rw [h]

theorem label_withLiteral (symbols : Symbols) (line : Line) :
    (line.withLiteral symbols).label = line.label := by
  unfold withLiteral
  split <;> rfl

theorem mnemonic_withLiteral (symbols : Symbols) (line : Line) :
    (line.withLiteral symbols).mnemonic = line.mnemonic := by
  unfold withLiteral
  split <;> rfl

theorem parse_inlineText (symbols : Symbols) (text : List Char) :
    parse (inlineText symbols text) = (parse text).withLiteral symbols := by
  unfold inlineText withLiteral
  split
  · rfl
  · next operand h =>
    obtain ⟨⟨name, hname⟩, hplain⟩ := of_literal? h
    exact parse_replaceOperand (exists_mnemonic_of_reference? hname).1 hplain

theorem inlineText_ne_nil (symbols : Symbols) {text : List Char} (h : text ≠ []) :
    inlineText symbols text ≠ [] := by
  intro hnil
  have hparse := parse_inlineText symbols text
  unfold inlineText at hnil hparse
  split at hnil
  · exact h hnil
  · next operand hl =>
    obtain ⟨⟨name, hname⟩, -⟩ := of_literal? hl
    obtain ⟨-, mnemonic, hm⟩ := exists_mnemonic_of_reference? hname
    have hnone : (parse []).mnemonic = none := rfl
    simp only [hl, hnil] at hparse
    rw [hparse, mnemonic_withLiteral, hm] at hnone
    cases hnone

theorem not_mem_inlineText (symbols : Symbols) {text : List Char} (h : '\n' ∉ text) :
    '\n' ∉ inlineText symbols text := by
  unfold inlineText
  split
  · exact h
  · next operand hl =>
    intro hc
    rcases mem_replaceOperand hc with hc | hc
    · exact h hc
    · exact absurd ((of_literal? hl).2 _ hc) (by decide)

end Line

namespace Program

/-! ### Texts -/

/-- A source text with an address in the place of every label that a statement waits for. -/
def inline (symbols : Symbols) (source : List Char) : List Char :=
  ['\n'].intercalate ((pieces '\n' source).map (Line.inlineText symbols))

theorem map_parse_linesOfPieces (symbols : Symbols) (ps : List (List Char)) :
    (linesOfPieces (ps.map (Line.inlineText symbols))).map Line.parse =
      (linesOfPieces ps).map fun text => (Line.parse text).withLiteral symbols := by
  induction ps with
  | nil => rfl
  | cons p rest ih =>
    by_cases hrest : rest = []
    · subst hrest
      by_cases hp : p = []
      · subst hp
        rfl
      · rw [List.map_singleton, linesOfPieces_singleton hp,
          linesOfPieces_singleton (Line.inlineText_ne_nil symbols hp), List.map_singleton,
          List.map_singleton, Line.parse_inlineText]
    · have hrest' : rest.map (Line.inlineText symbols) ≠ [] := by
        rw [ne_eq, List.map_eq_nil_iff]
        exact hrest
      rw [List.map_cons, linesOfPieces_cons hrest, linesOfPieces_cons hrest', List.map_cons,
        List.map_cons, ih, Line.parse_withoutReturn, Line.parse_withoutReturn,
        Line.parse_inlineText]

/-- **The lines of the new text** have the parts of the old lines but for the label operands. -/
theorem map_parse_lines_inline (symbols : Symbols) (source : List Char) :
    (lines (inline symbols source)).map Line.parse =
      (lines source).map fun text => (Line.parse text).withLiteral symbols := by
  have hne : (pieces '\n' source).map (Line.inlineText symbols) ≠ [] := by
    rw [ne_eq, List.map_eq_nil_iff]
    exact pieces_ne_nil '\n' source
  have hpieces : pieces '\n' (inline symbols source) =
      (pieces '\n' source).map (Line.inlineText symbols) := by
    refine pieces_intercalate hne fun p hp => ?_
    obtain ⟨q, hq, rfl⟩ := List.mem_map.mp hp
    exact Line.not_mem_inlineText symbols (not_mem_of_mem_pieces hq)
  unfold lines
  rw [hpieces, map_parse_linesOfPieces]

end Program

/-! ### The two passes -/

namespace Statement

variable {symbols : Symbols} {s : Statement}

/-- **A statement whose label has an address** becomes, with the address in the place of the label,
the same statement with the address filled in. -/
theorem encode_withLiteral {line : Line} {mnemonic : List Char} {position : UInt16} {number : Nat}
    (hm : line.mnemonic = some mnemonic)
    (h : encode mnemonic line.operand position number = .ok s) (hs : s.Resolves symbols) :
    encode mnemonic (line.withLiteral symbols).operand position number = .ok (s.filled symbols) ∧
      (s.filled symbols).label = none ∧ (s.filled symbols).bytes.length = s.bytes.length := by
  have href := Line.reference?_eq hm h
  cases hl : s.label with
  | none =>
    have hliteral : line.literal? symbols = none := by
      unfold Line.literal?
      rw [href, hl]
      rfl
    rw [Line.withLiteral_of_literal?_eq_none hliteral, filled_of_label_eq_none hl]
    exact ⟨h, hl, rfl⟩
  | some reference =>
    obtain ⟨name, kind⟩ := reference
    obtain ⟨s', hs'⟩ := hs
    have hne : s.label ≠ none := by
      rw [hl]
      exact Option.some_ne_none _
    have hfilled := filled_of_resolve hs'
    unfold resolve at hs'
    simp only [hl] at hs'
    cases ht : symbols.resolve? name with
    | none =>
      rw [ht] at hs'
      cases hs'
    | some target =>
      simp only [ht] at hs'
      have hliteral : (line.withLiteral symbols).operand = literalForm line.operand target := by
        have : line.literal? symbols = some (literalForm line.operand target) := by
          unfold Line.literal?
          rw [href, hl]
          simp [ht]
        unfold Line.withLiteral
        rw [this]
      have hlength : s'.bytes.length = s.bytes.length := length_bytes_of_patch hs'
      rw [hliteral, encode_literalForm h hne, hs', hfilled]
      exact ⟨rfl, rfl, hlength⟩

end Statement

namespace Layout

variable {symbols final : Symbols} {position number : Nat}

theorem placeStatement_withLiteral {line : Line} {statements : List Statement}
    (h : placeStatement position number line = .ok statements)
    (hs : ∀ s ∈ statements, s.Resolves final) :
    placeStatement position number (line.withLiteral final) =
        .ok (statements.map (Statement.filled final)) ∧
      size (statements.map (Statement.filled final)) = size statements ∧
      (∀ s ∈ statements.map (Statement.filled final), s.label = none) ∧
      (line.withLiteral final).reference? = none := by
  rw [placeStatement_eq_ok_iff] at h ⊢
  rw [Line.mnemonic_withLiteral]
  rcases h with ⟨hm, rfl⟩ | ⟨mnemonic, s, hm, hencode, hfit, rfl⟩
  · refine ⟨Or.inl ⟨hm, rfl⟩, rfl, List.forall_mem_nil _, ?_⟩
    unfold Line.reference?
    rw [Line.mnemonic_withLiteral, hm]
  · obtain ⟨hencode', hlabel, hlength⟩ :=
      Statement.encode_withLiteral hm hencode (hs s (List.mem_singleton_self s))
    have hm' : (line.withLiteral final).mnemonic = some mnemonic := by
      rw [Line.mnemonic_withLiteral, hm]
    refine ⟨Or.inr ⟨mnemonic, _, hm, hencode', ?_, rfl⟩, ?_, ?_, ?_⟩
    · rw [hlength]
      exact hfit
    · simp only [size, List.map_singleton, List.flatMap_singleton, hlength]
    · exact List.forall_mem_singleton.mpr hlabel
    · rw [Line.reference?_eq hm' hencode', hlabel]
      rfl

theorem ofLine_withLiteral {line : Line} {first : Layout}
    (h : ofLine symbols position number line = .ok first)
    (hs : ∀ s ∈ first.statements, s.Resolves final) :
    ofLine symbols position number (line.withLiteral final) =
        .ok { first with statements := first.statements.map (Statement.filled final) } ∧
      (∀ s ∈ first.statements.map (Statement.filled final), s.label = none) ∧
      (line.withLiteral final).reference? = none := by
  obtain ⟨after, statements, hlabel, hplace, rfl⟩ := ofLine_eq_ok_iff.mp h
  obtain ⟨hplace', hsize, hunlabelled, href⟩ := placeStatement_withLiteral hplace hs
  refine ⟨ofLine_eq_ok_iff.mpr ⟨after, _, ?_, hplace', ?_⟩, hunlabelled, href⟩
  · rw [Line.label_withLiteral]
    exact hlabel
  · rw [hsize]

/-- **The first pass** over lines with addresses in the place of labels finds the statements that the
second pass makes of the old ones. -/
theorem ofLines_withLiteral {texts texts' : List (List Char)} {layout : Layout}
    (hparse : texts'.map Line.parse = texts.map fun text => (Line.parse text).withLiteral final)
    (h : ofLines symbols position number texts = .ok layout)
    (hs : ∀ s ∈ layout.statements, s.Resolves final) :
    ofLines symbols position number texts' =
        .ok { layout with statements := layout.statements.map (Statement.filled final) } ∧
      (∀ s ∈ layout.statements.map (Statement.filled final), s.label = none) ∧
      ∀ text ∈ texts', (Line.parse text).reference? = none := by
  induction texts generalizing texts' symbols position number layout with
  | nil =>
    obtain rfl := List.map_eq_nil_iff.mp hparse
    cases h
    exact ⟨rfl, List.forall_mem_nil _, List.forall_mem_nil _⟩
  | cons text rest ih =>
    rw [List.map_cons] at hparse
    obtain ⟨text', rest', rfl, hfirst, hrest⟩ := List.map_eq_cons_iff.mp hparse
    obtain ⟨first, others, hline, hothers, rfl⟩ := ofLines_cons_eq_ok_iff.mp h
    obtain ⟨hs1, hs2⟩ := List.forall_mem_append.mp hs
    obtain ⟨hline', hlabel1, href⟩ := ofLine_withLiteral hline hs1
    obtain ⟨hothers', hlabel2, hrefs⟩ := ih hrest hothers hs2
    rw [← hfirst] at hline' href
    rw [ofLines_cons_eq_ok_iff, List.map_append]
    refine ⟨⟨_, _, hline', hothers', rfl⟩, ?_, ?_⟩
    · exact List.forall_mem_append.mpr ⟨hlabel1, hlabel2⟩
    · exact List.forall_mem_cons.mpr ⟨href, hrefs⟩

end Layout

namespace Program

theorem assemble_inline {origin : UInt16} {source : List Char} {program : Program}
    (h : assemble origin source = .ok program) :
    assemble origin (inline program.symbols source) = .ok program ∧
      ∀ text ∈ lines (inline program.symbols source), (Line.parse text).reference? = none := by
  obtain ⟨layout, bytes, hlines, hlink, rfl⟩ := assemble_eq_ok_iff.mp h
  obtain ⟨hresolves, rfl⟩ := Statement.link_eq_ok_iff.mp hlink
  obtain ⟨hlines', hlabel, href⟩ := Layout.ofLines_withLiteral
    (map_parse_lines_inline layout.symbols source) hlines hresolves
  refine ⟨assemble_eq_ok_iff.mpr ⟨_, _, hlines', ?_, rfl⟩, href⟩
  exact Statement.link_of_unlabelled _ _ hlabel

/-- **Labels mean their addresses.** If a source text assembles, then the text with an address in the
place of every label operand assembles to the same program; its lines have the parts of the old ones
but for these operands, and none of them waits for a label. For a single statement, filling the
address in and encoding the literal form come to the same, and fail only for the range. -/
theorem labels_mean_addresses :
    (∀ (origin : UInt16) (source : List Char) (program : Program),
      assemble origin source = .ok program →
        assemble origin (inline program.symbols source) = .ok program ∧
        (lines (inline program.symbols source)).map Line.parse =
          (lines source).map (fun text => (Line.parse text).withLiteral program.symbols) ∧
        ∀ text ∈ lines (inline program.symbols source), (Line.parse text).reference? = none) ∧
    (∀ (i : Instruction) (operand : List Char) (position : UInt16) (line : Nat) (s : Statement),
      Statement.ofInstruction i operand position line = .ok s → s.label ≠ none →
        ∀ target, Statement.ofInstruction i (Statement.literalForm operand target) position line =
            (s.patch target).map Statement.settled ∧
          ∀ problem, s.patch target = .error problem → problem.kind = .range) := by
  refine ⟨fun origin source program h => ?_, fun i operand position line s h hl target => ?_⟩
  · obtain ⟨hassemble, href⟩ := assemble_inline h
    exact ⟨hassemble, map_parse_lines_inline program.symbols source, href⟩
  · refine ⟨?_, fun _ => Statement.kind_of_patch_eq_error⟩
    obtain ⟨op, rfl, htakes, hwaiting⟩ := Statement.exists_takesLabel_ofInstruction h hl
    rw [hwaiting] at h
    cases h
    exact Statement.ofInstruction_literalForm htakes target position line

/-- A loop with a label before and labels behind it assembles like the loop with the addresses; and a
branch out of reach is refused in both forms. -/
theorem labels_mean_addresses_in_loop :
    (∃ program, program.bytes = [0xBD, 0x09, 0x06, 0xF0, 0x03, 0x4C, 0x00, 0x06, 0x60] ∧
      assemble 0x0600
        "again: LDA table , x ; next\n BEQ done\n JMP again\ndone: RTS\ntable:".toList =
          .ok program ∧
      assemble 0x0600
        "again: LDA $0609,X ; next\n BEQ $0608\n JMP $0600\ndone: RTS\ntable:".toList =
          .ok program) ∧
    Statement.ofInstruction .bne "$0700".toList 0x0600 1 =
      .error (.branchOutOfRange 0x0700 0x0602) := by
  refine ⟨⟨⟨0x0600, [0xBD, 0x09, 0x06, 0xF0, 0x03, 0x4C, 0x00, 0x06, 0x60],
    ⟨[⟨"again".toList, 0x0600, 1⟩, ⟨"done".toList, 0x0608, 4⟩, ⟨"table".toList, 0x0609, 5⟩]⟩⟩,
    rfl, ?_⟩, ?_⟩
  · have h : assemble 0x0600
        "again: LDA table , x ; next\n BEQ done\n JMP again\ndone: RTS\ntable:".toList =
          .ok ⟨0x0600, [0xBD, 0x09, 0x06, 0xF0, 0x03, 0x4C, 0x00, 0x06, 0x60],
            ⟨[⟨"again".toList, 0x0600, 1⟩, ⟨"done".toList, 0x0608, 4⟩,
              ⟨"table".toList, 0x0609, 5⟩]⟩⟩ := by decide +kernel
    obtain ⟨hnew, -⟩ := labels_mean_addresses.1 _ _ _ h
    refine ⟨h, ?_⟩
    rw [← hnew]
    exact congrArg (assemble 0x0600) (by decide +kernel)
  · have h : Statement.ofInstruction .bne "far".toList 0x0600 1 =
        .ok ⟨[0xD0, 0], some ("far".toList, .relative), 0x0600, 1⟩ := by decide +kernel
    obtain ⟨hnew, -⟩ := labels_mean_addresses.2 _ _ _ _ _ h (Option.some_ne_none _) 0x0700
    have hform : Statement.literalForm "far".toList 0x0700 = "$0700".toList := by decide +kernel
    rw [← hform, hnew]
    rfl

end Program

end Nmos6502
