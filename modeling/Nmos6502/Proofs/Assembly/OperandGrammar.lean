import Mathlib.Data.List.Basic
import Mathlib.Data.List.TakeWhile
import Nmos6502.Proofs.Assembly.OperandForms

/-!
# The grammar of operands

A mode reads exactly the texts that it writes, in digits of either case. The case of a letter counts
everywhere but in the digits that follow a `$`: so two texts are compared once these digits are in
upper case (`Hexadecimal.upperDigits`, `Hexadecimal.AlikeUpToCase`).

The delimiters of a mode can be told from the digits between them: the opening ends with its only `$`,
and the closing does not begin with a digit. So a text that is digits between two delimiters once the
digits are in upper case is so before (`Hexadecimal.exists_digits_of_upperDigits`). What the digits
stand for does not depend on their case (`Hexadecimal.bytes?_map_toUpper`), and both together give what
a mode reads (`AddressingMode.parse?_iff_upperDigits`). The two modes without delimiters are looked at
apart.
-/

namespace Nmos6502

namespace Hexadecimal

/-! ### The case of digits -/

/-- Whether a character is a hexadecimal digit, its letter in either case. -/
def isDigit (c : Char) : Bool :=
  ('0' ≤ c && c ≤ '9') || ('A' ≤ c && c ≤ 'F') || ('a' ≤ c && c ≤ 'f')

theorem isDigit_eq_isSome_value? (c : Char) : isDigit c = (value? c).isSome := by
  unfold isDigit value?
  split
  · next h => simp [h]
  · split
    · next h => simp [h]
    · split <;> simp_all

/-- The case of a digit does not count, and what is no digit does not become one. -/
theorem value?_toUpper (c : Char) : value? c.toUpper = value? c := by
  refine toUpper_induction (p := fun c d => value? d = value? c) ?_ ?_ c
  · decide +kernel
  · exact fun _ _ => rfl

theorem isDigit_toUpper (c : Char) : isDigit c.toUpper = isDigit c := by
  rw [isDigit_eq_isSome_value?, isDigit_eq_isSome_value?, value?_toUpper]

theorem byte?_toUpper (high low : Char) : byte? high.toUpper low.toUpper = byte? high low := by
  unfold byte?
  rw [value?_toUpper, value?_toUpper]

/-- **What digits stand for** does not depend on their case. -/
theorem bytes?_map_toUpper : ∀ text : List Char, bytes? (text.map Char.toUpper) = bytes? text
  | [] => rfl
  | [_] => rfl
  | high :: low :: rest => by
    rw [List.map_cons, List.map_cons, bytes?, bytes?, byte?_toUpper, bytes?_map_toUpper rest]

/-! ### Texts that differ in the case of digits -/

/-- A text with the digits that follow its first `$` in upper case. -/
def upperDigits : List Char → List Char
  | [] => []
  | c :: rest =>
    if c = '$' then c :: ((rest.takeWhile isDigit).map Char.toUpper ++ rest.dropWhile isDigit)
    else c :: upperDigits rest

/-- Two texts are the same but for the case of the digits that follow their first `$`. -/
def AlikeUpToCase (s t : List Char) : Prop :=
  upperDigits s = upperDigits t

instance (s t : List Char) : Decidable (AlikeUpToCase s t) :=
  inferInstanceAs (Decidable (_ = _))

variable {opening digits closing : List Char}

/-- Digits end where something else begins. -/
theorem span_digits (hd : ∀ c ∈ digits, isDigit c = true) (hc : closing.takeWhile isDigit = []) :
    (digits ++ closing).takeWhile isDigit = digits ∧
      (digits ++ closing).dropWhile isDigit = closing := by
  have hdrop : closing.dropWhile isDigit = closing := by
    conv => rhs; rw [← List.takeWhile_append_dropWhile (p := isDigit) (l := closing), hc]
    rfl
  exact ⟨by rw [List.takeWhile_append_of_pos hd, hc, List.append_nil],
    by rw [List.dropWhile_append_of_pos hd, hdrop]⟩

/-- The digits between two delimiters are put in upper case, and nothing else is. -/
theorem upperDigits_append (ho : '$' ∉ opening) (hd : ∀ c ∈ digits, isDigit c = true)
    (hc : closing.takeWhile isDigit = []) :
    upperDigits (opening ++ '$' :: (digits ++ closing)) =
      opening ++ '$' :: (digits.map Char.toUpper ++ closing) := by
  induction opening with
  | nil =>
    obtain ⟨htake, hdrop⟩ := span_digits hd hc
    rw [List.nil_append, upperDigits, if_pos rfl, htake, hdrop]
    rfl
  | cons c opening ih =>
    have hne : c ≠ '$' := (List.ne_of_not_mem_cons ho).symm
    rw [List.cons_append, upperDigits, if_neg hne, ih (mt (List.mem_cons_of_mem c) ho)]
    rfl

theorem upperDigits_of_not_mem {text : List Char} (h : '$' ∉ text) : upperDigits text = text := by
  induction text with
  | nil => rfl
  | cons c rest ih =>
    have hne : c ≠ '$' := (List.ne_of_not_mem_cons h).symm
    rw [upperDigits, if_neg hne, ih (mt (List.mem_cons_of_mem c) h)]

theorem dollar_mem_upperDigits_iff {text : List Char} : '$' ∈ upperDigits text ↔ '$' ∈ text := by
  induction text with
  | nil => exact Iff.rfl
  | cons c rest ih =>
    rw [upperDigits]
    split
    · next h => simp [h]
    · next h => simp [Ne.symm h, ih]

/-- A text without a `$` is alike to no other. -/
theorem eq_of_upperDigits_eq {token text : List Char} (h : upperDigits token = text)
    (ht : '$' ∉ text) : token = text := by
  rw [← h, dollar_mem_upperDigits_iff] at ht
  rw [← h, upperDigits_of_not_mem ht]

theorem map_toUpper_isDigit (hd : ∀ c ∈ digits, isDigit c = true) :
    ∀ c ∈ digits.map Char.toUpper, isDigit c = true := by
  intro c hc
  obtain ⟨d, hmem, rfl⟩ := List.mem_map.mp hc
  rw [isDigit_toUpper]
  exact hd d hmem

/-- **A text that is digits between two delimiters** once the digits are in upper case is so before. -/
theorem exists_digits_of_upperDigits {token upper : List Char} (ho : '$' ∉ opening)
    (hd : ∀ c ∈ upper, isDigit c = true) (hc : closing.takeWhile isDigit = [])
    (hclosing : '$' ∉ closing)
    (h : upperDigits token = opening ++ '$' :: (upper ++ closing)) :
    ∃ digits, token = opening ++ '$' :: (digits ++ closing) ∧ digits.map Char.toUpper = upper := by
  have hdollar : '$' ∉ upper ++ closing := fun hmem =>
    (List.mem_append.mp hmem).elim (fun hmem => absurd (hd _ hmem) (by decide)) hclosing
  have htoken : '$' ∈ token := by
    rw [← dollar_mem_upperDigits_iff, h]
    exact List.mem_append_right _ (List.mem_cons_self ..)
  obtain ⟨before, after, rfl, hbefore⟩ := List.eq_append_cons_of_mem htoken
  -- behind the `$` the token has its digits and what follows them
  have hafter := List.takeWhile_append_dropWhile (p := isDigit) (l := after)
  have hdigits : ∀ c ∈ after.takeWhile isDigit, isDigit c = true := fun c hmem =>
    List.mem_takeWhile_imp hmem
  have hbehind : (after.dropWhile isDigit).takeWhile isDigit = [] := by
    rw [List.takeWhile_eq_nil_iff]
    exact List.dropWhile_get_zero_not isDigit after
  rw [← hafter, upperDigits_append hbefore hdigits hbehind] at h
  obtain ⟨rfl, -, hrest⟩ := (List.append_cons_inj_of_notMem ho hdollar).mp h.symm
  obtain ⟨htake, hdrop⟩ := span_digits hd hc
  obtain ⟨htake', hdrop'⟩ := span_digits (map_toUpper_isDigit hdigits) hbehind
  rw [hrest] at htake hdrop
  refine ⟨after.takeWhile isDigit, ?_, htake'.symm.trans htake⟩
  rw [← hdrop, hdrop', hafter]

end Hexadecimal

namespace AddressingMode

/-! ### What a mode reads -/

variable {mode : AddressingMode} {token : List Char} {bytes : List UInt8}

/-- The delimiters of a mode can be told from the digits between them. -/
theorem of_opening_ne_nil (h : mode.opening ≠ []) : ∃ before, mode.opening = before ++ ['$'] ∧
    '$' ∉ before ∧ '$' ∉ mode.closing ∧ mode.closing.takeWhile Hexadecimal.isDigit = [] := by
  have hall : ∀ m ∈ all, m.opening ≠ [] → m.opening = m.opening.dropLast ++ ['$'] ∧
      '$' ∉ m.opening.dropLast ∧ '$' ∉ m.closing ∧
        m.closing.takeWhile Hexadecimal.isDigit = [] := by decide
  exact ⟨_, hall mode (mem_all mode) h⟩

theorem parse?_of_opening_ne_nil (h : mode.opening ≠ []) (token : List Char) :
    mode.parse? token = mode.delimited? token := by
  cases mode with
  | implied | accumulator => exact absurd rfl h
  | _ => rfl

theorem format_of_opening_ne_nil (h : mode.opening ≠ []) (hl : bytes.length = mode.operandSize) :
    mode.format bytes = mode.opening ++ Hexadecimal.ofBytes bytes.reverse ++ mode.closing := by
  have hbytes := operandBytes_eq_self hl
  cases mode with
  | implied | accumulator => exact absurd rfl h
  | _ =>
    unfold format
    dsimp only
    rw [hbytes]

theorem eq_or_opening_ne_nil (mode : AddressingMode) :
    mode = implied ∨ mode = accumulator ∨ mode.opening ≠ [] := by
  cases mode <;> decide

/-- What a mode with delimiters reads is what it writes, once the digits are in upper case. -/
theorem parse?_iff_upperDigits (h : mode.opening ≠ []) (hl : bytes.length = mode.operandSize) :
    mode.parse? token = some bytes ↔ Hexadecimal.upperDigits token = mode.format bytes := by
  obtain ⟨before, hopening, hbefore, hclosing, hend⟩ := of_opening_ne_nil h
  have hformat := format_of_opening_ne_nil h hl
  rw [parse?_of_opening_ne_nil h, delimited?_eq_some_iff, hformat, hopening]
  simp only [List.append_assoc, List.cons_append, List.nil_append]
  constructor
  · rintro ⟨digits, rfl, hbytes, -⟩
    have hdigits : ∀ c ∈ digits, Hexadecimal.isDigit c = true := fun c hc => by
      rw [Hexadecimal.isDigit_eq_isSome_value?]
      exact (Hexadecimal.digits_of_bytes? hbytes).2 c hc
    rw [Hexadecimal.upperDigits_append hbefore hdigits hend, Hexadecimal.ofBytes_of_bytes? hbytes]
  · intro hupper
    have hdigits : ∀ c ∈ Hexadecimal.ofBytes bytes.reverse, Hexadecimal.isDigit c = true := by
      have hall : ∀ c ∈ Hexadecimal.written, Hexadecimal.isDigit c = true :=
        forall_mem_of_all (by decide)
      exact fun c hc => hall c (Hexadecimal.mem_written_of_mem_ofBytes hc)
    obtain ⟨digits, rfl, hd⟩ :=
      Hexadecimal.exists_digits_of_upperDigits hbefore hdigits hend hclosing hupper
    refine ⟨digits, rfl, ?_, hl⟩
    rw [← Hexadecimal.bytes?_map_toUpper, hd, Hexadecimal.bytes?_ofBytes]

/-- A written operand has its digits in upper case. -/
theorem upperDigits_format (hl : bytes.length = mode.operandSize) :
    Hexadecimal.upperDigits (mode.format bytes) = mode.format bytes := by
  rcases eq_or_opening_ne_nil mode with rfl | rfl | hopening
  · rfl
  · rfl
  · exact (parse?_iff_upperDigits hopening hl).mp (parse?_format hl)

/-- What is read is written with its digits in upper case, unless it is the accumulator left out. -/
theorem upperDigits_of_parse? (h : mode.parse? token = some bytes) :
    Hexadecimal.upperDigits token = mode.format bytes ∨ mode = accumulator ∧ token = [] := by
  rcases eq_or_opening_ne_nil mode with rfl | rfl | hopening
  · obtain ⟨rfl, -⟩ := Option.ite_none_right_eq_some.mp h
    exact Or.inl rfl
  · obtain ⟨rfl | rfl, -⟩ := Option.ite_none_right_eq_some.mp h
    · exact Or.inr ⟨rfl, rfl⟩
    · exact Or.inl rfl
  · exact Or.inl ((parse?_iff_upperDigits hopening (length_of_parse? h)).mp h)

/-- What is written is read with its digits in either case. -/
theorem parse?_of_upperDigits (hl : bytes.length = mode.operandSize)
    (h : Hexadecimal.upperDigits token = mode.format bytes) : mode.parse? token = some bytes := by
  rcases eq_or_opening_ne_nil mode with rfl | rfl | hopening
  · obtain rfl := List.eq_nil_of_length_eq_zero hl
    rw [Hexadecimal.eq_of_upperDigits_eq h (by decide)]
    rfl
  · obtain rfl := List.eq_nil_of_length_eq_zero hl
    rw [Hexadecimal.eq_of_upperDigits_eq h (by decide)]
    rfl
  · exact (parse?_iff_upperDigits hopening hl).mpr h

/-- A mode reads what it writes, in digits of either case. -/
structure ReadsWhatItWrites (mode : AddressingMode) : Prop where
  /-- What is read is what is written but for the case of digits. Only the accumulator may be left
  out. -/
  reads_iff : ∀ token bytes, mode.parse? token = some bytes ↔ bytes.length = mode.operandSize ∧
    (Hexadecimal.AlikeUpToCase token (mode.format bytes) ∨ mode = accumulator ∧ token = [])
  /-- Whatever is written is read. -/
  reads_format : ∀ bytes, bytes.length = mode.operandSize →
    mode.parse? (mode.format bytes) = some bytes
  /-- What is read is written again with its digits in upper case, and the accumulator as `A`. -/
  format_eq : ∀ token bytes, mode.parse? token = some bytes →
    mode.format bytes =
      if mode = accumulator ∧ token = [] then ['A'] else Hexadecimal.upperDigits token

/-- **The grammar of operands**: every mode reads what it writes, in digits of either case, and no
other text. -/
theorem reads_what_it_writes (mode : AddressingMode) : mode.ReadsWhatItWrites where
  reads_iff token bytes := by
    unfold Hexadecimal.AlikeUpToCase
    constructor
    · intro h
      rw [upperDigits_format (length_of_parse? h)]
      exact ⟨length_of_parse? h, upperDigits_of_parse? h⟩
    · rintro ⟨hl, halike | ⟨rfl, rfl⟩⟩
      · rw [upperDigits_format hl] at halike
        exact parse?_of_upperDigits hl halike
      · rw [List.eq_nil_of_length_eq_zero hl]
        rfl
  reads_format bytes := parse?_format
  format_eq token bytes h := by
    split
    · next hempty =>
      rw [hempty.1]
      rfl
    · next hempty => exact ((upperDigits_of_parse? h).resolve_right hempty).symm

/-- A pointer with digits in mixed case is read, and written again in upper case. An index in lower case
is not read, and neither is a fullwidth digit. -/
theorem reads_what_it_writes_in_mixed_case :
    indirect.parse? "($fFfC)".toList = some [0xFC, 0xFF] ∧
      indirect.format [0xFC, 0xFF] = "($FFFC)".toList ∧
      absoluteX.parse? "$fFfC,x".toList = none ∧ zeroPage.parse? "$１0".toList = none := by
  have hread : indirect.parse? "($fFfC)".toList = some [0xFC, 0xFF] :=
    ((reads_what_it_writes indirect).reads_iff _ _).mpr ⟨rfl, Or.inl (by decide)⟩
  exact ⟨hread, (reads_what_it_writes indirect).format_eq _ _ hread, by decide, by decide⟩

end AddressingMode

end Nmos6502
