import Mathlib.Algebra.Order.BigOperators.Group.List
import Mathlib.Algebra.Order.Group.Nat
import Nmos6502.Proofs.Assembly.Refusals

/-!
# Sizes

A line is no longer than its text, and a statement has at most a quarter as many bytes as its operand has
characters, and three more (`Statement.length_bytes_encode`). A statement that waits for a label has room
for its address (`Statement.size_lt_of_label`).
-/

namespace Nmos6502

/-! ### Texts -/

theorem Label.length_le_utf8Size (text : List Char) : text.length ≤ utf8Size text := by
  induction text with
  | nil => exact Nat.le_refl 0
  | cons c rest ih =>
    have hc := c.utf8Size_pos
    rw [List.length_cons, utf8Size]
    omega

/-- The pieces of a text and the separators between them are as long as the text. -/
theorem sum_length_pieces (separator : Char) (text : List Char) :
    ((pieces separator text).map List.length).sum + (pieces separator text).length =
      text.length + 1 := by
  induction text with
  | nil => rfl
  | cons c rest ih =>
    rw [pieces]
    split
    · simp only [List.map_cons, List.sum_cons, List.length_cons, List.length_nil]
      omega
    · obtain ⟨piece, others, hp⟩ := List.exists_cons_of_ne_nil (pieces_ne_nil separator rest)
      rw [hp] at ih ⊢
      simp only [List.map_cons, List.sum_cons, List.length_cons] at ih ⊢
      omega

theorem length_withoutReturn_le (line : List Char) : (withoutReturn line).length ≤ line.length := by
  rcases withoutReturn_cases line with h | h
  · exact Nat.le_of_eq (congrArg List.length h)
  · conv => rhs; rw [h]
    simp

theorem sum_length_linesOfPieces_le (ps : List (List Char)) :
    ((linesOfPieces ps).map List.length).sum ≤ (ps.map List.length).sum := by
  induction ps with
  | nil => exact Nat.le_refl 0
  | cons p rest ih =>
    by_cases hrest : rest = []
    · subst hrest
      by_cases hp : p = []
      · subst hp
        exact Nat.le_refl 0
      · rw [linesOfPieces_singleton hp]
    · rw [linesOfPieces_cons hrest]
      simp only [List.map_cons, List.sum_cons]
      exact Nat.add_le_add (length_withoutReturn_le p) ih

/-- A line is no longer than its text. -/
theorem length_le_of_mem_lines {source line : List Char} (h : line ∈ lines source) :
    line.length ≤ source.length := by
  have hline := List.le_sum_of_mem (List.mem_map_of_mem (f := List.length) h)
  have hlines := sum_length_linesOfPieces_le (pieces '\n' source)
  have hpieces := sum_length_pieces '\n' source
  have hpos := List.length_pos_iff.mpr (pieces_ne_nil '\n' source)
  unfold lines at hline
  omega

namespace Line

theorem operand_ofStatement_sublist (statement : List Char) :
    List.Sublist (ofStatement statement).operand statement := by
  unfold ofStatement
  split
  · exact List.nil_sublist statement
  · exact List.filter_sublist.trans ((List.dropWhile_sublist _).trans (List.dropWhile_sublist _))

/-- The operand of a line is part of its text. -/
theorem operand_sublist (text : List Char) : List.Sublist (parse text).operand text := by
  rw [parse_eq]
  refine List.Sublist.trans ?_ (List.takeWhile_sublist (· != ';'))
  unfold ofCode
  split
  · exact (operand_ofStatement_sublist _).trans
      ((List.tail_sublist _).trans (List.dropWhile_sublist _))
  · exact operand_ofStatement_sublist _

end Line

/-! ### Statements -/

/-- The bytes of an address. -/
def Reference.size : Reference → Nat
  | .absolute => 2
  | .relative => 1

theorem AddressingMode.operandSize_le (mode : AddressingMode) : mode.operandSize ≤ 2 := by
  cases mode <;> decide

/-- A byte is written with three characters. -/
theorem AddressingMode.length_of_parse?_zeroPage {token : List Char} {bytes : List UInt8}
    (h : zeroPage.parse? token = some bytes) : token.length = 3 := by
  obtain ⟨digits, rfl, hdigits, hbytes⟩ := delimited?_eq_some_iff.mp h
  obtain ⟨hlength, -⟩ := Hexadecimal.digits_of_bytes? hdigits
  rw [List.length_reverse, hbytes] at hlength
  simp [hlength, opening, closing, operandSize]

namespace Statement

variable {mnemonic operand : List Char} {position : UInt16} {line : Nat} {s : Statement}

theorem sum_length_of_values {texts : List (List Char)} {bytes : List UInt8}
    (h : values texts = .ok bytes) : (texts.map List.length).sum = 3 * texts.length := by
  have hread := forall₂_of_values h
  clear h
  induction hread with
  | nil => rfl
  | cons hfirst _ ih =>
    rw [List.map_cons, List.sum_cons, List.length_cons, ih,
      AddressingMode.length_of_parse?_zeroPage hfirst]
    omega

/-- Each value of a directive is written with three characters and divided from the next by one. -/
theorem four_mul_length_pieces {name : List Char}
    (h : encode ('.' :: name) operand position line = .ok s) :
    4 * (pieces ',' operand).length = operand.length + 1 := by
  rw [encode_directive] at h
  split at h
  · obtain ⟨bytes, hv, -⟩ := of_ofByteDirective h
    have hsum := sum_length_pieces ',' operand
    rw [sum_length_of_values hv] at hsum
    omega
  · cases h

theorem instructionWidth_le (i : Instruction) (operand : List Char) :
    instructionWidth i operand ≤ 3 := by
  unfold instructionWidth
  split
  · decide
  · split
    · exact Nat.succ_le_succ (AddressingMode.operandSize_le _)
    · decide

/-- **The size of a statement** is bounded by that of its operand. -/
theorem length_bytes_encode (h : encode mnemonic operand position line = .ok s) :
    4 * s.bytes.length ≤ operand.length + 12 := by
  rw [(stands_encode h).1.length_bytes]
  by_cases hdot : ∃ name, mnemonic = '.' :: name
  · obtain ⟨name, rfl⟩ := hdot
    change 4 * (pieces ',' operand).length ≤ operand.length + 12
    have hpieces := four_mul_length_pieces h
    omega
  · have hplain : ∀ name, mnemonic ≠ '.' :: name := fun name hn => hdot ⟨name, hn⟩
    rw [encode_plain hplain] at h
    cases hi : Instruction.ofMnemonic? mnemonic with
    | none =>
      rw [hi] at h
      cases h
    | some i =>
      rw [width_of_ofMnemonic? hplain hi]
      have hwidth := instructionWidth_le i operand
      omega

/-- A statement that waits for a label has an opcode and room for the address. -/
theorem size_lt_of_label {name : List Char} {kind : Reference}
    (h : encode mnemonic operand position line = .ok s) (hl : s.label = some (name, kind)) :
    kind.size < s.bytes.length := by
  obtain ⟨op, -, rfl, -⟩ := exists_takesLabel h (by rw [hl]; exact Option.some_ne_none _)
  unfold waiting at hl ⊢
  split at hl
  · next hm =>
    cases hl
    rw [if_pos hm]
    exact Nat.lt_succ_self 1
  · next hm =>
    cases hl
    rw [if_neg hm]
    exact Nat.lt_succ_self 2

end Statement

end Nmos6502
