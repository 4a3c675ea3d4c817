import Nmos6502.Proofs.Processor.Numerals
import Nmos6502.Proofs.Processor.Results

/-!
# Sums of several bytes

A number of several bytes is added to another, or subtracted from it, byte by byte from the lowest on,
each byte with the carry that the byte before has left (`Registers.chain`). What one place does is a
law of sums (`Sum8.Law`): in binary for all bytes, in decimal for bytes of two digits, with the
complement of the second number in a subtraction. A law carries over to numbers of any length
(`Registers.chain_law`), and so do the overflow and the sign (`Registers.overflow_chain`). In binary a
chain of subtractions is one of additions of the complement (`Registers.chain_sbc`).
-/

namespace Nmos6502

open Numeral

/-! ### Complements -/

namespace Numeral

theorem toNat_complement (m : UInt8) : (~~~m).toNat = 256 - 1 - m.toNat := by
  have hle : m ≤ 255 := UInt8.le_iff_toNat_le.mpr (Nat.le_of_lt_succ m.toNat_lt)
  rw [complement_eq, UInt8.toNat_sub_of_le _ _ hle]
  rfl

theorem natural_complement (bytes : List UInt8) :
    natural (bytes.map (~~~·)) + natural bytes + 1 = 256 ^ bytes.length := by
  have hmap : (bytes.map (~~~·)).map UInt8.toNat = bytes.map fun b => 256 - 1 - b.toNat := by
    rw [List.map_map]
    exact List.map_congr_left fun b _ => toNat_complement b
  unfold natural
  rw [hmap]
  exact ofDigits_complement fun b _ => b.toNat_lt

theorem signed_complement {bytes : List UInt8} (h : bytes ≠ []) :
    signed (bytes.map (~~~·)) = -1 - signed bytes := by
  obtain ⟨b, rest, rfl⟩ := List.exists_cons_of_ne_nil h
  have hcomplement := natural_complement (b :: rest)
  rw [List.length_cons, Nat.pow_succ, List.map_cons] at hcomplement
  rw [List.map_cons, signed_eq, signed_eq, List.length_map]
  split <;> split <;> omega

end Numeral

/-! ### One place -/

/-- Sums of two bytes add the numbers that the bytes stand for, with a carry into the next place. -/
structure Sum8.Law (op : UInt8 → UInt8 → Bool → Sum8) (base : Nat) (first second : UInt8 → Nat)
    (valid : UInt8 → Prop) : Prop where
  valid_value {a m : UInt8} (c : Bool) : valid a → valid m → valid (op a m c).value
  sum {a m : UInt8} (c : Bool) : valid a → valid m →
    first (op a m c).value + base * (op a m c).carry.toNat = first a + second m + c.toNat

namespace Sum8

theorem toNat_value_add (a m : UInt8) (c : Bool) :
    (add a m c).value.toNat + 256 * (add a m c).carry.toNat = a.toNat + m.toNat + c.toNat := by
  have ha := a.toNat_lt
  have hm := m.toNat_lt
  have hc := c.toNat_le
  unfold add
  dsimp only
  rw [UInt8.toNat_ofNat']
  by_cases h : 0xFF < a.toNat + m.toNat + c.toNat
  · rw [decide_eq_true h, Bool.toNat_true]
    omega
  · rw [decide_eq_false h, Bool.toNat_false]
    omega

theorem law_add : Law add 256 UInt8.toNat UInt8.toNat fun _ => True where
  valid_value _ _ _ := trivial
  sum c _ _ := toNat_value_add _ _ c

theorem topBit_eq_testBit (b : UInt8) : (b &&& 0x80 != 0) = b.toNat.testBit 7 :=
  forall_byte (P := fun b => (b &&& 0x80 != 0) = b.toNat.testBit 7) (by decide +kernel) b

/-- **An overflow** is a sum of signed numbers that has no two's complement of one byte. -/
theorem overflow_add_iff (a m : UInt8) (c : Bool) :
    (add a m c).overflow = true ↔ ¬ IsSigned 1 (signed [a] + signed [m] + c.toNat) := by
  have ha := a.toNat_lt
  have hm := m.toNat_lt
  have hv := (add a m c).value.toNat_lt
  have hc := c.toNat_le
  have hc' := (add a m c).carry.toNat_le
  have hvalue := toNat_value_add a m c
  have hbits : (add a m c).overflow =
      ((a.toNat.testBit 7 ^^ (add a m c).value.toNat.testBit 7) &&
        (m.toNat.testBit 7 ^^ (add a m c).value.toNat.testBit 7)) := by
    change ((a ^^^ (add a m c).value) &&& (m ^^^ (add a m c).value) &&& 0x80 != 0) = _
    rw [topBit_eq_testBit, UInt8.toNat_and, UInt8.toNat_xor, UInt8.toNat_xor, Nat.testBit_and,
      Nat.testBit_xor, Nat.testBit_xor]
  have htop : ∀ n < 256, n.testBit 7 = decide (128 ≤ n) := by
    intro n hn
    rw [Nat.testBit_eq_decide_div_mod_eq]
    exact decide_eq_decide.mpr (by omega)
  rw [hbits, htop _ ha, htop _ hm, htop _ hv, signed_singleton, signed_singleton]
  unfold IsSigned
  -- The three signs decide whether there is an overflow, and in what range the sum is.
  by_cases h₁ : 128 ≤ a.toNat <;> by_cases h₂ : 128 ≤ m.toNat <;>
    by_cases h₃ : 128 ≤ (add a m c).value.toNat <;> simp [h₁, h₂, h₃] <;> omega

/-! ### Decimal places -/

theorem toNat_ofNat_adjustUp {high low : Nat} (hh : high ≤ 19) (hl : low ≤ 19) :
    (UInt8.ofNat (adjustUp high * 16 + adjustUp low % 16)).toNat = high % 10 * 16 + low % 10 := by
  rw [UInt8.toNat_ofNat']
  unfold adjustUp
  split <;> split <;> omega

/-- What a sum of two digits carries into the next place. -/
theorem carry_adjustUp {sum : Nat} (h : sum ≤ 19) :
    (if 0xF < adjustUp sum then 1 else 0) = sum / 10 := by
  unfold adjustUp
  split <;> split <;> omega

theorem law_addDecimal : Law addDecimal 100 digits digits IsPacked := by
  have hplaces : ∀ {a m : UInt8} (c : Bool), IsPacked a → IsPacked m →
      IsPacked (addDecimal a m c).value ∧
        digits (addDecimal a m c).value + 100 * (addDecimal a m c).carry.toNat =
          digits a + digits m + c.toNat := by
    rintro a m c ⟨ha, ha'⟩ ⟨hm, hm'⟩
    have hc := c.toNat_le
    have hcarry : (addDecimal a m c).carry.toNat = if 0xF < adjustUp _ then 1 else 0 :=
      apply_ite Bool.toNat _ true false
    rw [carry_adjustUp (by split <;> omega)] at hcarry
    unfold IsPacked digits
    rw [hcarry]
    unfold addDecimal
    dsimp only
    rw [carry_adjustUp (by omega), toNat_ofNat_adjustUp (by omega) (by omega)]
    omega
  exact ⟨fun c ha hm => (hplaces c ha hm).1, fun c ha hm => (hplaces c ha hm).2⟩

/-- A difference of two digits is brought back among the digits by a borrow. -/
theorem toNat_ofNat_adjustDown {high low : Int} (hh : -10 ≤ high ∧ high ≤ 9)
    (hl : -10 ≤ low ∧ low ≤ 9) :
    ((UInt8.ofNat ((adjustDown high * 16 + adjustDown low % 16) % 256).toNat).toNat : Int) =
      (if high < 0 then high + 10 else high) * 16 + if low < 0 then low + 10 else low := by
  rw [UInt8.toNat_ofNat']
  unfold adjustDown
  split <;> split <;> omega

/-- A subtraction borrows exactly when the second number is larger. -/
theorem carry_subtract (a m : UInt8) (c : Bool) :
    (subtract a m c).carry = decide (m.toNat + (!c).toNat ≤ a.toNat) := by
  have hm := m.toNat_lt
  have hc : (!c).toNat + c.toNat = 1 := by cases c <;> rfl
  unfold subtract add
  dsimp only
  rw [toNat_complement]
  exact decide_eq_decide.mpr (by omega)

theorem law_subtractDecimal :
    Law subtractDecimal 100 digits (fun b => 99 - digits b) IsPacked := by
  have hplaces : ∀ {a m : UInt8} (c : Bool), IsPacked a → IsPacked m →
      IsPacked (subtractDecimal a m c).value ∧
        digits (subtractDecimal a m c).value + 100 * (subtractDecimal a m c).carry.toNat =
          digits a + (99 - digits m) + c.toNat := by
    rintro a m c ⟨ha, ha'⟩ ⟨hm, hm'⟩
    have hc : (!c).toNat + c.toNat = 1 := by cases c <;> rfl
    have hvalue : ((subtractDecimal a m c).value.toNat : Int) = _ :=
      toNat_ofNat_adjustDown (by split <;> omega) (by omega)
    have hcarry : (subtractDecimal a m c).carry = _ := carry_subtract a m c
    unfold IsPacked digits
    -- The two borrows decide the digits, and the comparison of the bytes decides the carry.
    by_cases hle : m.toNat + (!c).toNat ≤ a.toNat
    · rw [hcarry, decide_eq_true hle, Bool.toNat_true]
      split at hvalue <;> split at hvalue <;> omega
    · rw [hcarry, decide_eq_false hle, Bool.toNat_false]
      split at hvalue <;> split at hvalue <;> omega
  exact ⟨fun c ha hm => (hplaces c ha hm).1, fun c ha hm => (hplaces c ha hm).2⟩

end Sum8

/-! ### All places -/

namespace Registers

/-- A number is combined with another, byte by byte from the lowest on. The accumulator takes each byte
of the first number, and the instruction takes in the byte of the second; the carry is the one that it
has left in the place before. -/
def chain (i : Instruction) (r : Registers) : List UInt8 → List UInt8 → List UInt8 × Registers
  | a :: as, m :: ms =>
    let r' := i.effect.outcome m { r with a }
    let rest := chain i r' as ms
    (r'.a :: rest.1, rest.2)
  | _, _ => ([], r)

/-- An instruction puts sums into the accumulator, in one of the two modes. -/
def Forms (i : Instruction) (decimal : Bool) (op : UInt8 → UInt8 → Bool → Sum8) : Prop :=
  ∀ (m : UInt8) (r : Registers), r.flags.decimal = decimal →
    i.effect.outcome m r = r.withSum (op r.a m r.flags.carry)

theorem forms_adc : Forms .adc false Sum8.add :=
  fun m _ hd => add_of_binary hd m

theorem forms_sbc : Forms .sbc false Sum8.subtract :=
  fun m _ hd => subtract_of_binary hd m

theorem forms_adc_decimal : Forms .adc true Sum8.addDecimal := by
  intro m r hd
  change r.withSum (if r.flags.decimal then _ else _) = _
  rw [if_pos hd]

theorem forms_sbc_decimal : Forms .sbc true Sum8.subtractDecimal := by
  intro m r hd
  change r.withSum (if r.flags.decimal then _ else _) = _
  rw [if_pos hd]

variable {i : Instruction} {decimal : Bool} {op : UInt8 → UInt8 → Bool → Sum8}
  {as ms : List UInt8} {r : Registers}

/-- The lowest place first. -/
theorem chain_cons (hi : Forms i decimal op) (hd : r.flags.decimal = decimal) (a m : UInt8)
    (as ms : List UInt8) :
    let s := op a m r.flags.carry
    let rest := chain i ({ r with a }.withSum s) as ms
    chain i r (a :: as) (m :: ms) = (s.value :: rest.1, rest.2) := by
  intro s rest
  have hr : i.effect.outcome m { r with a } = { r with a }.withSum s := hi m { r with a } hd
  change ((i.effect.outcome m { r with a }).a :: _, _) = _
  rw [hr]
  rfl

/-- **A law of one place** is one of all places. -/
theorem chain_law {base : Nat} {first second : UInt8 → Nat} {valid : UInt8 → Prop}
    (hi : Forms i decimal op) (h : Sum8.Law op base first second valid)
    (hlength : as.length = ms.length) (hd : r.flags.decimal = decimal)
    (hvalid : ∀ b ∈ as ++ ms, valid b) :
    let out := r.chain i as ms
    out.1.length = as.length ∧ (∀ b ∈ out.1, valid b) ∧
      Nat.ofDigits base (out.1.map first) + base ^ as.length * out.2.flags.carry.toNat =
        Nat.ofDigits base (as.map first) + Nat.ofDigits base (ms.map second) +
          r.flags.carry.toNat := by
  induction as generalizing ms r with
  | nil =>
    obtain rfl : ms = [] := List.length_eq_zero_iff.mp hlength.symm
    simp [chain, Nat.ofDigits_nil]
  | cons a as ih =>
    cases ms with
    | nil => cases hlength
    | cons m ms =>
      obtain ⟨has, hms⟩ := List.forall_mem_append.mp hvalid
      obtain ⟨ha, has⟩ := List.forall_mem_cons.mp has
      obtain ⟨hm, hms⟩ := List.forall_mem_cons.mp hms
      have hsum := h.sum r.flags.carry ha hm
      obtain ⟨hlen, hall, hvalue⟩ := ih (Nat.succ.inj hlength)
        (r := { r with a }.withSum (op a m r.flags.carry)) hd (List.forall_mem_append.mpr ⟨has, hms⟩)
      rw [chain_cons hi hd]
      refine ⟨congrArg Nat.succ hlen, ?_, ?_⟩
      · exact List.forall_mem_cons.mpr ⟨h.valid_value r.flags.carry ha hm, hall⟩
      · change _ + _ = _ + _ + (op a m r.flags.carry).carry.toNat at hvalue
        simp only [List.map_cons, Nat.ofDigits_cons, List.length_cons, Nat.pow_succ']
        rw [Nat.mul_assoc, Nat.add_assoc, ← Nat.mul_add, hvalue, Nat.mul_add, Nat.mul_add]
        omega

/-- **The overflow and the sign** of a long sum are those of its highest place. -/
theorem overflow_chain (hlength : as.length = ms.length) (hne : as ≠ [])
    (hd : r.flags.decimal = false) :
    let out := r.chain .adc as ms
    (out.2.flags.overflow = true ↔
        ¬ IsSigned as.length (signed as + signed ms + r.flags.carry.toNat)) ∧
      (out.2.flags.negative = true ↔ 256 ^ as.length ≤ 2 * natural out.1) := by
  induction as generalizing ms r with
  | nil => exact absurd rfl hne
  | cons a as ih =>
    cases ms with
    | nil => cases hlength
    | cons m ms =>
      have hsum := Sum8.toNat_value_add a m r.flags.carry
      have hlt := (Sum8.add a m r.flags.carry).value.toNat_lt
      rw [chain_cons forms_adc hd]
      by_cases has : as = []
      · subst has
        obtain rfl : ms = [] := List.length_eq_zero_iff.mp (Nat.succ.inj hlength).symm
        refine ⟨Sum8.overflow_add_iff a m r.flags.carry, ?_⟩
        refine (topBit_iff _).trans (UInt8.le_iff_toNat_le.trans ?_)
        change 128 ≤ (Sum8.add a m r.flags.carry).value.toNat ↔
          256 ^ 1 ≤ 2 * natural [(Sum8.add a m r.flags.carry).value]
        rw [natural_singleton]
        omega
      · have hms : ms ≠ [] := by
          rintro rfl
          exact has (List.length_eq_zero_iff.mp (Nat.succ.inj hlength))
        obtain ⟨n, hn⟩ := Nat.exists_eq_succ_of_ne_zero (mt List.length_eq_zero_iff.mp has)
        obtain ⟨hoverflow, hnegative⟩ := ih (Nat.succ.inj hlength) has
          (r := { r with a }.withSum (Sum8.add a m r.flags.carry)) hd
        have hexact : signed (a :: as) + signed (m :: ms) + r.flags.carry.toNat =
            (Sum8.add a m r.flags.carry).value.toNat + 256 *
              (signed as + signed ms + (Sum8.add a m r.flags.carry).carry.toNat) := by
          rw [signed_cons a has, signed_cons m hms]
          omega
        rw [hexact, List.length_cons, hn]
        rw [hn] at hoverflow hnegative
        refine ⟨hoverflow.trans (not_congr (isSigned_succ_iff hlt _).symm), hnegative.trans ?_⟩
        rw [natural_cons, Nat.pow_succ 256, Nat.pow_succ 256]
        omega

/-- **A chain of subtractions** is one of additions of the complement. -/
theorem chain_sbc (hd : r.flags.decimal = false) (as ms : List UInt8) :
    r.chain .sbc as ms = r.chain .adc as (ms.map (~~~·)) := by
  induction as generalizing ms r with
  | nil => rfl
  | cons a as ih =>
    cases ms with
    | nil => rfl
    | cons m ms =>
      have hrest := ih (r := { r with a }.withSum (Sum8.subtract a m r.flags.carry)) hd ms
      rw [List.map_cons, chain_cons forms_sbc hd, chain_cons forms_adc hd, hrest]
      rfl

/-! ### Sums and differences -/

/-- A binary number of `n` bytes and flags are what is left of an exact result. -/
structure LeavesBinary (n : Nat) (exact exactSigned : Int) (carries : Prop)
    (out : List UInt8 × Registers) : Prop where
  length : out.1.length = n
  value : (natural out.1 : Int) = exact % 256 ^ n
  carry : out.2.flags.carry = true ↔ carries
  overflow : out.2.flags.overflow = true ↔ ¬ IsSigned n exactSigned
  /-- The negative flag is the highest bit. -/
  negative : out.2.flags.negative = true ↔ 256 ^ n ≤ 2 * natural out.1

/-- A decimal number of `n` bytes and the carry are what is left of an exact result. -/
structure LeavesDecimal (n : Nat) (exact : Int) (carries : Prop)
    (out : List UInt8 × Registers) : Prop where
  length : out.1.length = n
  isPacked : ∀ b ∈ out.1, IsPacked b
  value : (packed out.1 : Int) = exact % 100 ^ n
  carry : out.2.flags.carry = true ↔ carries

theorem leavesBinary_adc (hlength : as.length = ms.length) (hne : as ≠ [])
    (hd : r.flags.decimal = false) :
    LeavesBinary as.length (natural as + natural ms + r.flags.carry.toNat)
      (signed as + signed ms + r.flags.carry.toNat)
      ((256 ^ as.length : Int) ≤ natural as + natural ms + r.flags.carry.toNat)
      (r.chain .adc as ms) := by
  obtain ⟨hlen, -, htotal⟩ := chain_law forms_adc Sum8.law_add hlength hd fun _ _ => trivial
  obtain ⟨hoverflow, hnegative⟩ := overflow_chain hlength hne hd
  have hlt := natural_lt (r.chain .adc as ms).1
  rw [hlen] at hlt
  obtain ⟨hvalue, hcarry⟩ := of_sum hlt htotal
  rw [Nat.cast_pow] at hvalue hcarry
  exact ⟨hlen, hvalue, hcarry, hoverflow, hnegative⟩

theorem leavesBinary_sbc (hlength : as.length = ms.length) (hne : as ≠ [])
    (hd : r.flags.decimal = false) :
    LeavesBinary as.length (natural as - natural ms - (1 - r.flags.carry.toNat))
      (signed as - signed ms - (1 - r.flags.carry.toNat))
      ((natural ms : Int) + (1 - r.flags.carry.toNat) ≤ natural as) (r.chain .sbc as ms) := by
  have hms : ms ≠ [] := by
    rintro rfl
    exact hne (List.length_eq_zero_iff.mp hlength)
  have hlength' : as.length = (ms.map (~~~·)).length := by rw [List.length_map, hlength]
  have hcomplement := natural_complement ms
  rw [← hlength] at hcomplement
  obtain ⟨hlen, -, htotal⟩ := chain_law forms_adc Sum8.law_add hlength' hd fun _ _ => trivial
  obtain ⟨hoverflow, hnegative⟩ := overflow_chain hlength' hne hd
  rw [← chain_sbc hd] at hlen htotal hoverflow hnegative
  have hlt := natural_lt (r.chain .sbc as ms).1
  rw [hlen] at hlt
  obtain ⟨hvalue, hcarry⟩ := of_difference hlt hcomplement htotal
  have hexact : signed as + signed (ms.map (~~~·)) + r.flags.carry.toNat =
      signed as - signed ms - (1 - r.flags.carry.toNat) := by
    rw [signed_complement hms]
    omega
  rw [hexact] at hoverflow
  rw [Nat.cast_pow] at hvalue
  exact ⟨hlen, hvalue, hcarry, hoverflow, hnegative⟩

theorem leavesDecimal_adc (hlength : as.length = ms.length) (hd : r.flags.decimal = true)
    (hpacked : ∀ b ∈ as ++ ms, IsPacked b) :
    LeavesDecimal as.length (packed as + packed ms + r.flags.carry.toNat)
      ((100 ^ as.length : Int) ≤ packed as + packed ms + r.flags.carry.toNat)
      (r.chain .adc as ms) := by
  obtain ⟨hlen, hall, htotal⟩ :=
    chain_law forms_adc_decimal Sum8.law_addDecimal hlength hd hpacked
  have hlt := ofDigits_map_lt (by decide) fun b hb => digits_lt (hall b hb)
  rw [hlen] at hlt
  obtain ⟨hvalue, hcarry⟩ := of_sum hlt htotal
  rw [Nat.cast_pow] at hvalue hcarry
  exact ⟨hlen, hall, hvalue, hcarry⟩

theorem leavesDecimal_sbc (hlength : as.length = ms.length) (hd : r.flags.decimal = true)
    (hpacked : ∀ b ∈ as ++ ms, IsPacked b) :
    LeavesDecimal as.length (packed as - packed ms - (1 - r.flags.carry.toNat))
      ((packed ms : Int) + (1 - r.flags.carry.toNat) ≤ packed as) (r.chain .sbc as ms) := by
  obtain ⟨hlen, hall, htotal⟩ :=
    chain_law forms_sbc_decimal Sum8.law_subtractDecimal hlength hd hpacked
  have hlt := ofDigits_map_lt (by decide) fun b hb => digits_lt (hall b hb)
  have hcomplement := ofDigits_complement fun b hb =>
    digits_lt (hpacked b (List.mem_append_right as hb))
  rw [hlen] at hlt
  rw [← hlength] at hcomplement
  obtain ⟨hvalue, hcarry⟩ := of_difference hlt hcomplement htotal
  rw [Nat.cast_pow] at hvalue
  exact ⟨hlen, hall, hvalue, hcarry⟩

/-- **Sums and differences of any length.** Byte by byte, with the carry that each place leaves to the
next, numbers of `n` bytes are added and subtracted modulo `256 ^ n`, or modulo `100 ^ n` in decimal;
the carry says whether the sum was too large, or the difference not negative. -/
theorem long_arithmetic (r : Registers) (hlength : as.length = ms.length) (hne : as ≠ []) :
    let n := as.length
    let c : Int := r.flags.carry.toNat
    (r.flags.decimal = false →
      LeavesBinary n (natural as + natural ms + c) (signed as + signed ms + c)
          (256 ^ n ≤ natural as + natural ms + c) (r.chain .adc as ms) ∧
        LeavesBinary n (natural as - natural ms - (1 - c)) (signed as - signed ms - (1 - c))
          (natural ms + (1 - c) ≤ natural as) (r.chain .sbc as ms)) ∧
      (r.flags.decimal = true → (∀ b ∈ as ++ ms, IsPacked b) →
        LeavesDecimal n (packed as + packed ms + c) (100 ^ n ≤ packed as + packed ms + c)
            (r.chain .adc as ms) ∧
          LeavesDecimal n (packed as - packed ms - (1 - c)) (packed ms + (1 - c) ≤ packed as)
            (r.chain .sbc as ms)) := by
  intro n c
  exact ⟨fun hd => ⟨leavesBinary_adc hlength hne hd, leavesBinary_sbc hlength hne hd⟩,
    fun hd hpacked => ⟨leavesDecimal_adc hlength hd hpacked, leavesDecimal_sbc hlength hd hpacked⟩⟩

/-- The largest signed number of two bytes grows by a carry, and a decimal difference borrows from its
second byte. -/
theorem long_arithmetic_in_both_modes :
    let binary : Registers := { reset 0 with flags := { Flags.clear with carry := true } }
    let decimal : Registers := { reset 0 with flags := { Flags.clear with decimal := true } }
    natural (binary.chain .adc [0xFF, 0x7F] [0x00, 0x00]).1 = 0x8000 ∧
      (binary.chain .adc [0xFF, 0x7F] [0x00, 0x00]).2.flags.overflow = true ∧
      packed (decimal.chain .sbc [0x00, 0x10] [0x00, 0x01]).1 = 899 ∧
      (decimal.chain .sbc [0x00, 0x10] [0x00, 0x01]).2.flags.carry = true := by
  intro binary decimal
  obtain ⟨hsum, -⟩ :=
    (@long_arithmetic [0xFF, 0x7F] [0x00, 0x00] binary rfl (by decide)).1 rfl
  obtain ⟨-, hdifference⟩ :=
    (@long_arithmetic [0x00, 0x10] [0x00, 0x01] decimal rfl (by decide)).2 rfl
      (by decide +kernel)
  refine ⟨?_, hsum.overflow.mpr (by decide), ?_, hdifference.carry.mpr (by decide)⟩
  · exact Int.ofNat_inj.mp (hsum.value.trans (by decide))
  · exact Int.ofNat_inj.mp (hdifference.value.trans (by decide))

end Registers

end Nmos6502
