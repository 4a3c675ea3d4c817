import Mathlib.Data.List.TakeWhile
import Nmos6502.Assembly.Statement
import Nmos6502.Proofs.Text.Lines

/-!
# Written forms of operands

An operand that a mode writes is read back by that mode (`parse?_format`), and one that it reads is
written again in upper case (`format_of_parse?`). A text also tells the mode that reads it: once every
hexadecimal digit is blotted out, what remains (`outline`) is one of the few outlines of the mode
(`outline_mem_outlines`), and two modes share an outline only if they are written alike, without an
operand or as one byte (`eq_or_alike_of_outlines`). No instruction has two modes that are written alike,
so the order in which the modes of an instruction are tried does not matter (`literal?_eq_some_iff`).
-/

namespace Nmos6502

/-- Only small letters have another letter in upper case, so a fact about a character and itself in
upper case is tested on these. -/
theorem toUpper_induction {p : Char → Char → Prop}
    (small : ∀ k : Fin 123, p (Char.ofNat k.val) (Char.ofNat k.val).toUpper)
    (same : ∀ c : Char, c.toUpper = c → p c c) (c : Char) : p c c.toUpper := by
  by_cases h : 'a' ≤ c ∧ c ≤ 'z'
  · have hk := small ⟨c.toNat, Nat.lt_succ_of_le h.2⟩
    rwa [Char.ofNat_toNat] at hk
  · have hc : c.toUpper = c := dif_neg h
    rw [hc]
    exact same c hc

namespace Hexadecimal

/-- The digits that are written. -/
def written : List Char :=
  ['0', '1', '2', '3', '4', '5', '6', '7', '8', '9', 'A', 'B', 'C', 'D', 'E', 'F']

theorem digit_mem_written {n : Nat} (h : n < 16) : digit n ∈ written := by
  have : ∀ m : Fin 16, digit m.val ∈ written := by decide
  exact this ⟨n, h⟩

theorem mem_written_of_mem_ofBytes {bytes : List UInt8} {c : Char} (h : c ∈ ofBytes bytes) :
    c ∈ written := by
  obtain ⟨b, -, hc⟩ := List.mem_flatMap.mp h
  have hb := b.toNat_lt
  rcases List.mem_cons.mp hc with rfl | hc
  · exact digit_mem_written (by omega)
  · rw [List.mem_singleton] at hc
    subst hc
    exact digit_mem_written (by omega)

theorem isSome_value?_of_byte? {high low : Char} {b : UInt8} (h : byte? high low = some b) :
    (value? high).isSome = true ∧ (value? low).isSome = true := by
  unfold byte? at h
  split at h
  · next hh hl => exact ⟨by rw [hh]; rfl, by rw [hl]; rfl⟩
  · cases h

/-- A text of bytes has two digits for each of them, and nothing else. -/
theorem digits_of_bytes? {text : List Char} {bytes : List UInt8} (h : bytes? text = some bytes) :
    text.length = 2 * bytes.length ∧ ∀ c ∈ text, (value? c).isSome = true := by
  fun_induction bytes? text generalizing bytes with
  | case1 =>
    cases h
    simp
  | case2 => cases h
  | case3 high low rest b bs hbs hb ih =>
    cases h
    obtain ⟨hl, hc⟩ := ih hbs
    obtain ⟨hh, hlow⟩ := isSome_value?_of_byte? hb
    refine ⟨by simp only [List.length_cons, hl]; omega, ?_⟩
    simp only [List.mem_cons, forall_eq_or_imp]
    exact ⟨hh, hlow, hc⟩
  | case4 => cases h

/-- A digit that is read stands for a number below sixteen, which is written in upper case. -/
theorem of_value? {c : Char} {n : Nat} (h : value? c = some n) :
    n < 16 ∧ digit n = c.toUpper := by
  have htable : ∀ k : Fin 128, (value? (Char.ofNat k.val)).all
      (fun n => decide (n < 16 ∧ digit n = (Char.ofNat k.val).toUpper)) = true := by
    decide +kernel
  have hc : c.toNat ≤ 102 := by
    unfold value? at h
    simp only [Char.le_def, UInt32.le_iff_toNat_le] at h
    split at h
    · next hr => exact Nat.le_trans hr.2 (by decide)
    · split at h
      · next hr => exact Nat.le_trans hr.2 (by decide)
      · split at h
        · next hr => exact hr.2
        · cases h
  have hk := htable ⟨c.toNat, by omega⟩
  rw [Char.ofNat_toNat, h] at hk
  exact of_decide_eq_true hk

theorem ofByte_of_byte? {high low : Char} {b : UInt8} (h : byte? high low = some b) :
    ofByte b = [high.toUpper, low.toUpper] := by
  unfold byte? at h
  split at h
  · next m n hm hn =>
    cases h
    obtain ⟨hmlt, hmdigit⟩ := of_value? hm
    obtain ⟨hnlt, hndigit⟩ := of_value? hn
    have hb : (UInt8.ofNat (m * 16 + n)).toNat = m * 16 + n :=
      UInt8.toNat_ofNat_of_lt' (show m * 16 + n < 256 by omega)
    have hhigh : (m * 16 + n) / 16 = m := by omega
    have hlow : (m * 16 + n) % 16 = n := by omega
    unfold ofByte
    rw [hb, hhigh, hlow, hmdigit, hndigit]
  · cases h

/-- Bytes that are read are written again in upper case. -/
theorem ofBytes_of_bytes? {text : List Char} {bytes : List UInt8} (h : bytes? text = some bytes) :
    ofBytes bytes = text.map Char.toUpper := by
  fun_induction bytes? text generalizing bytes with
  | case1 =>
    cases h
    rfl
  | case2 => cases h
  | case3 high low rest b bs hbs hb ih =>
    cases h
    have ih := ih hbs
    unfold ofBytes at ih ⊢
    rw [List.flatMap_cons, ofByte_of_byte? hb, ih]
    rfl
  | case4 => cases h

end Hexadecimal

/-! ### Outlines -/

/-- A text in which every hexadecimal digit is blotted out. -/
def outline (text : List Char) : List Char :=
  text.map fun c => if (Hexadecimal.value? c).isSome then '0' else c

theorem outline_append (s t : List Char) : outline (s ++ t) = outline s ++ outline t :=
  List.map_append ..

theorem outline_digits {text : List Char} (h : ∀ c ∈ text, (Hexadecimal.value? c).isSome = true) :
    outline text = List.replicate text.length '0' := by
  unfold outline
  rw [List.map_congr_left (g := fun _ => '0') fun c hc => by simp [h c hc], List.map_const']

namespace AddressingMode

/-- What the operands that a mode reads look like with their digits blotted out. -/
def outlines (mode : AddressingMode) : List (List Char) :=
  match mode with
  | implied => [[]]
  | accumulator => [[], ['0']]
  | mode => [mode.opening ++ List.replicate (2 * mode.operandSize) '0' ++ mode.closing]

theorem delimited?_eq_some_iff {mode : AddressingMode} {token : List Char} {bytes : List UInt8} :
    mode.delimited? token = some bytes ↔
      ∃ digits, token = mode.opening ++ digits ++ mode.closing ∧
        Hexadecimal.bytes? digits = some bytes.reverse ∧ bytes.length = mode.operandSize := by
  have hcut : ∀ digits, (after? mode.opening token).bind (before? mode.closing) = some digits ↔
      token = mode.opening ++ digits ++ mode.closing := fun digits => by
    rw [Option.bind_eq_some_iff, List.append_assoc]
    constructor
    · rintro ⟨rest, ha, hb⟩
      rw [after?_eq_some_iff.mp ha, before?_eq_some_iff.mp hb]
    · rintro rfl
      exact ⟨_, after?_append _ _, before?_append _ _⟩
  unfold delimited?
  constructor
  · intro h
    split at h
    · cases h
    · next digits hd =>
      split at h
      · cases h
      · next found hf =>
        split at h
        · next hl =>
          cases h
          exact ⟨digits, (hcut digits).mp hd, by rw [hf, List.reverse_reverse], by simpa using hl⟩
        · cases h
  · rintro ⟨digits, ht, hb, hl⟩
    simp [(hcut digits).mpr ht, hb, hl]

/-- **Reading a written operand** gives its bytes back. -/
theorem parse?_format {mode : AddressingMode} {bytes : List UInt8}
    (h : bytes.length = mode.operandSize) : mode.parse? (mode.format bytes) = some bytes := by
  have hdelimited : mode.delimited? (mode.opening ++
      Hexadecimal.ofBytes (mode.operandBytes bytes).reverse ++ mode.closing) = some bytes := by
    rw [delimited?_eq_some_iff, operandBytes_eq_self h]
    exact ⟨_, rfl, Hexadecimal.bytes?_ofBytes _, h⟩
  cases mode with
  | implied => rw [List.eq_nil_of_length_eq_zero h]; rfl
  | accumulator => rw [List.eq_nil_of_length_eq_zero h]; rfl
  | _ => exact hdelimited

/-- **Writing a read operand** gives it back in upper case; only the accumulator is written out. -/
theorem format_of_parse? {mode : AddressingMode} {token : List Char} {bytes : List UInt8}
    (h : mode.parse? token = some bytes) :
    mode.format bytes = if mode = accumulator then ['A'] else token.map Char.toUpper := by
  have hmarks : ∀ m ∈ all, m.opening.map Char.toUpper = m.opening ∧
      m.closing.map Char.toUpper = m.closing := by decide
  have hdelimited : mode.delimited? token = some bytes → mode.opening ++
      Hexadecimal.ofBytes (mode.operandBytes bytes).reverse ++ mode.closing =
        token.map Char.toUpper := fun h => by
    obtain ⟨digits, rfl, hb, hl⟩ := delimited?_eq_some_iff.mp h
    obtain ⟨ho, hc⟩ := hmarks mode (mem_all mode)
    rw [operandBytes_eq_self hl, Hexadecimal.ofBytes_of_bytes? hb, List.map_append,
      List.map_append, ho, hc]
  cases mode with
  | implied =>
    simp only [parse?, Option.ite_none_right_eq_some] at h
    rw [h.1]
    rfl
  | accumulator => rfl
  | _ => exact hdelimited h

/-- A read operand has as many bytes as its mode takes. -/
theorem length_of_parse? {mode : AddressingMode} {token : List Char} {bytes : List UInt8}
    (h : mode.parse? token = some bytes) : bytes.length = mode.operandSize := by
  have hdelimited : mode.delimited? token = some bytes → bytes.length = mode.operandSize := fun h =>
    (delimited?_eq_some_iff.mp h).elim fun _ hd => hd.2.2
  cases mode with
  | implied | accumulator =>
    simp only [parse?, Option.ite_none_right_eq_some, Option.some.injEq] at h
    rw [← h.2]
    rfl
  | _ => exact hdelimited h

theorem outline_mem_outlines {mode : AddressingMode} {token : List Char} {bytes : List UInt8}
    (h : mode.parse? token = some bytes) : outline token ∈ mode.outlines := by
  have hmarks : ∀ m ∈ all, outline m.opening = m.opening ∧ outline m.closing = m.closing := by
    decide
  have hdelimited : mode.delimited? token = some bytes → outline token =
      mode.opening ++ List.replicate (2 * mode.operandSize) '0' ++ mode.closing := fun h => by
    obtain ⟨digits, rfl, hb, hl⟩ := delimited?_eq_some_iff.mp h
    obtain ⟨hlen, hdig⟩ := Hexadecimal.digits_of_bytes? hb
    obtain ⟨ho, hc⟩ := hmarks mode (mem_all mode)
    rw [outline_append, outline_append, ho, hc, outline_digits hdig, hlen, List.length_reverse, hl]
  cases mode with
  | implied =>
    simp only [parse?, Option.ite_none_right_eq_some] at h
    rw [h.1]
    decide
  | accumulator =>
    simp only [parse?, Option.ite_none_right_eq_some] at h
    rcases h.1 with ht | ht <;> rw [ht] <;> decide
  | _ => exact List.mem_singleton.mpr (hdelimited h)

/-- Two modes whose operands are written alike: without an operand, or as one byte. -/
def Alike (m m' : AddressingMode) : Prop :=
  (m, m') ∈ [(implied, accumulator), (accumulator, implied), (zeroPage, relative),
    (relative, zeroPage)]

instance (m m' : AddressingMode) : Decidable (Alike m m') := by
  unfold Alike; infer_instance

/-- Modes with an outline in common are the same or written alike. -/
theorem eq_or_alike_of_outlines {m m' : AddressingMode} {text : List Char}
    (h : text ∈ m.outlines) (h' : text ∈ m'.outlines) : m = m' ∨ Alike m m' := by
  have hall : ∀ m ∈ all, ∀ m' ∈ all, ∀ text ∈ m.outlines, text ∈ m'.outlines →
      m = m' ∨ Alike m m' := by decide
  exact hall m (mem_all m) m' (mem_all m') text h h'

/-! ### The characters of an operand -/

/-- The characters that occur in written operands. -/
def alphabet : List Char :=
  Hexadecimal.written ++ ['#', '$', '(', ')', ',', 'X', 'Y']

theorem mem_alphabet_of_mem_format {mode : AddressingMode} {bytes : List UInt8} {c : Char}
    (h : c ∈ mode.format bytes) : c ∈ alphabet := by
  have hmarks : ∀ m ∈ all, ((m.opening ++ m.closing).all fun c => decide (c ∈ alphabet)) = true := by
    decide
  have hdelimited : c ∈ mode.opening ++ Hexadecimal.ofBytes (mode.operandBytes bytes).reverse ++
      mode.closing → c ∈ alphabet := fun h => by
    rcases List.mem_append.mp h with h | h
    · rcases List.mem_append.mp h with h | h
      · exact forall_mem_of_all (hmarks mode (mem_all mode)) c (List.mem_append_left _ h)
      · exact List.mem_append_left _ (Hexadecimal.mem_written_of_mem_ofBytes h)
    · exact forall_mem_of_all (hmarks mode (mem_all mode)) c (List.mem_append_right _ h)
  cases mode with
  | implied => cases h
  | accumulator =>
    rw [List.mem_singleton.mp h]
    decide
  | _ => exact hdelimited h

/-- A written operand has no letter in lower case. -/
theorem toUpper_format (mode : AddressingMode) (bytes : List UInt8) :
    (mode.format bytes).map Char.toUpper = mode.format bytes := by
  have hupper : ∀ c ∈ alphabet, c.toUpper = c := forall_mem_of_all (by decide)
  rw [List.map_congr_left fun c hc => hupper c (mem_alphabet_of_mem_format hc), List.map_id']

end AddressingMode

/-! ### Literal operands of an instruction -/

namespace Instruction

/-- The table has one opcode for an instruction in a mode. -/
theorem opcode?_of_mem_table {op : Opcode} (h : op ∈ Opcode.table) :
    op.instruction.opcode? op.mode = some op := by
  have hall : ∀ op ∈ Opcode.table, op.instruction.opcode? op.mode = some op := by decide +kernel
  exact hall op h

/-- The branches are the instructions with a relative mode, and have no other. -/
theorem isBranch_iff_of_mem_table {op : Opcode} (h : op ∈ Opcode.table) :
    op.instruction.isBranch = true ↔ op.mode = .relative := by
  have hall : ∀ op ∈ Opcode.table, op.instruction.isBranch = true ↔ op.mode = .relative := by
    decide +kernel
  exact hall op h

/-- The instructions that may work on the accumulator without an operand. -/
def shifts : List Instruction := [asl, lsr, rol, ror]

theorem mem_shifts_of_mem_table {op : Opcode} (h : op ∈ Opcode.table) :
    (op.mode = .accumulator → op.instruction ∈ shifts) ∧
      (op.mode = .implied → op.instruction ∉ shifts) := by
  have hall : ∀ op ∈ Opcode.table, (op.mode = .accumulator → op.instruction ∈ shifts) ∧
      (op.mode = .implied → op.instruction ∉ shifts) := by decide +kernel
  exact hall op h

/-- No instruction has two modes that are written alike. -/
theorem not_alike_of_opcode? {i : Instruction} {m m' : AddressingMode} {op op' : Opcode}
    (h : i.opcode? m = some op) (h' : i.opcode? m' = some op') : ¬ AddressingMode.Alike m m' := by
  obtain ⟨ht, hi, rfl⟩ := of_opcode? h
  obtain ⟨ht', hi', rfl⟩ := of_opcode? h'
  have hb := isBranch_iff_of_mem_table ht
  have hb' := isBranch_iff_of_mem_table ht'
  have hs := mem_shifts_of_mem_table ht
  have hs' := mem_shifts_of_mem_table ht'
  rw [hi] at hb hs
  rw [hi'] at hb' hs'
  intro halike
  simp only [AddressingMode.Alike, List.mem_cons, Prod.mk.injEq, List.not_mem_nil, or_false]
    at halike
  rcases halike with ⟨hm, hm'⟩ | ⟨hm, hm'⟩ | ⟨hm, hm'⟩ | ⟨hm, hm'⟩ <;> simp_all

end Instruction

namespace Statement

/-- Two modes of an instruction that read the same operand are the same. -/
theorem eq_of_parse? {i : Instruction} {m m' : AddressingMode} {op op' : Opcode}
    {operand : List Char} {bytes bytes' : List UInt8} (hop : i.opcode? m = some op)
    (hop' : i.opcode? m' = some op') (h : m.parse? operand = some bytes)
    (h' : m'.parse? operand = some bytes') : m = m' := by
  have hout := AddressingMode.outline_mem_outlines h
  have hout' := AddressingMode.outline_mem_outlines h'
  rcases AddressingMode.eq_or_alike_of_outlines hout hout' with heq | halike
  · exact heq
  · exact absurd halike (Instruction.not_alike_of_opcode? hop hop')

theorem exists_of_literal? {i : Instruction} {operand : List Char} {modes : List AddressingMode}
    {op : Opcode} {bytes : List UInt8} (h : literal? i operand modes = some (op, bytes)) :
    i.opcode? op.mode = some op ∧ op.mode.parse? operand = some bytes := by
  obtain ⟨m, -, hm⟩ := List.exists_of_findSome?_eq_some h
  split at hm
  · next op' bytes' ho hb =>
    cases hm
    obtain rfl : op.mode = m := (Instruction.of_opcode? ho).2.2
    exact ⟨ho, hb⟩
  · cases hm

/-- **The mode of a literal operand** is the one mode of the instruction that reads it. -/
theorem literal?_eq_some_iff {i : Instruction} {operand : List Char} {op : Opcode}
    {bytes : List UInt8} :
    literal? i operand AddressingMode.all = some (op, bytes) ↔
      i.opcode? op.mode = some op ∧ op.mode.parse? operand = some bytes := by
  refine ⟨exists_of_literal?, ?_⟩
  rintro ⟨ho, hb⟩
  -- some mode is found; it reads the operand too, so it is the mode of `op`
  cases hr : literal? i operand AddressingMode.all with
  | none =>
    have hnone := List.findSome?_eq_none_iff.mp hr op.mode (AddressingMode.mem_all op.mode)
    simp [ho, hb] at hnone
  | some r =>
    obtain ⟨op', bytes'⟩ := r
    obtain ⟨ho', hb'⟩ := exists_of_literal? hr
    have hmode := eq_of_parse? ho ho' hb hb'
    rw [← hmode] at ho' hb'
    rw [ho] at ho'
    rw [hb] at hb'
    cases ho'
    cases hb'
    rfl

end Statement

end Nmos6502
