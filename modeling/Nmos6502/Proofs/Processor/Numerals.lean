import Mathlib.Data.Nat.Digits.Defs

/-!
# Numbers of several bytes

Bytes in a row, the lowest first, stand for a number: a natural one (`Numeral.natural`), one in two's
complement (`Numeral.signed`), or one in packed decimal (`Numeral.packed`). The complement of every
place is the complement of the number (`Numeral.ofDigits_complement`). The sign of a number is that of
its highest byte, so that a byte in front changes nothing in what it is to be in the range of the
signed numbers (`Numeral.signed_cons`, `Numeral.isSigned_succ_iff`).
-/

namespace Nmos6502

namespace Numeral

variable {bytes : List UInt8}

/-! ### Places -/

/-- A number is smaller than the power that comes next. -/
theorem ofDigits_map_lt {base : Nat} {place : UInt8 → Nat} (hbase : 1 < base)
    (h : ∀ b ∈ bytes, place b < base) :
    Nat.ofDigits base (bytes.map place) < base ^ bytes.length := by
  rw [← @List.length_map _ _ bytes place]
  refine Nat.ofDigits_lt_base_pow_length hbase fun d hd => ?_
  obtain ⟨b, hb, rfl⟩ := List.mem_map.mp hd
  exact h b hb

/-- **The complement** of a number has the complement in every place. -/
theorem ofDigits_complement {base : Nat} {place : UInt8 → Nat}
    (h : ∀ b ∈ bytes, place b < base) :
    Nat.ofDigits base (bytes.map fun b => base - 1 - place b) +
      Nat.ofDigits base (bytes.map place) + 1 = base ^ bytes.length := by
  induction bytes with
  | nil => rfl
  | cons b rest ih =>
    obtain ⟨hb, hrest⟩ := List.forall_mem_cons.mp h
    simp only [List.map_cons, Nat.ofDigits_cons, List.length_cons, Nat.pow_succ']
    rw [← ih hrest, Nat.mul_add, Nat.mul_add]
    omega

variable {value power first second complement : Nat} {c carry : Bool}

/-- What is left of a sum in so many places, and whether there is a carry out of them. -/
theorem of_sum (hlt : value < power)
    (h : value + power * carry.toNat = first + second + c.toNat) :
    (value : Int) = ((first : Int) + second + c.toNat) % power ∧
      (carry = true ↔ (power : Int) ≤ first + second + c.toNat) := by
  have hmod : (value : Int) = ((value + power * carry.toNat : Nat) : Int) % power := by
    rw [← Int.natCast_mod, Nat.add_mul_mod_self_left, Nat.mod_eq_of_lt hlt]
  rw [h] at hmod
  refine ⟨by exact_mod_cast hmod, ?_⟩
  cases carry with
  | false =>
    rw [Bool.toNat_false, Nat.mul_zero] at h
    exact ⟨Bool.noConfusion, by omega⟩
  | true =>
    rw [Bool.toNat_true, Nat.mul_one] at h
    exact ⟨by omega, fun _ => rfl⟩

/-- What is left of a difference, which is a sum with the complement, and whether it borrows nothing. -/
theorem of_difference (hlt : value < power) (hcomplement : complement + second + 1 = power)
    (h : value + power * carry.toNat = first + complement + c.toNat) :
    (value : Int) = ((first : Int) - second - (1 - c.toNat)) % power ∧
      (carry = true ↔ (second : Int) + (1 - c.toNat) ≤ first) := by
  obtain ⟨hvalue, hcarry⟩ := of_sum hlt h
  have hexact : (first : Int) + complement + c.toNat =
      first - second - (1 - c.toNat) + power := by omega
  rw [hexact] at hvalue hcarry
  rw [Int.add_emod_right] at hvalue
  exact ⟨hvalue, hcarry.trans (by omega)⟩

/-! ### Binary numbers -/

/-- The number whose bytes these are. -/
def natural (bytes : List UInt8) : Nat :=
  Nat.ofDigits 256 (bytes.map UInt8.toNat)

/-- The number whose two's complement these bytes are. -/
def signed (bytes : List UInt8) : Int :=
  (natural bytes : Int).bmod (256 ^ bytes.length)

/-- A number has a two's complement of so many bytes. -/
def IsSigned (n : Nat) (x : Int) : Prop :=
  -256 ^ n ≤ 2 * x ∧ 2 * x < 256 ^ n

instance (n : Nat) (x : Int) : Decidable (IsSigned n x) :=
  inferInstanceAs (Decidable (-256 ^ n ≤ 2 * x ∧ 2 * x < 256 ^ n))

theorem natural_cons (b : UInt8) (bytes : List UInt8) :
    natural (b :: bytes) = b.toNat + 256 * natural bytes :=
  Nat.ofDigits_cons

theorem natural_singleton (b : UInt8) : natural [b] = b.toNat :=
  natural_cons b []

theorem natural_lt (bytes : List UInt8) : natural bytes < 256 ^ bytes.length :=
  ofDigits_map_lt (by decide) fun b _ => b.toNat_lt

/-- A number below an even modulus, in balanced form. -/
theorem bmod_of_lt {x half : Nat} (h : x < 2 * half) :
    (x : Int).bmod (2 * half) = if x < half then (x : Int) else x - (2 * half : Nat) := by
  rw [Int.bmod_def, ← Int.natCast_mod, Nat.mod_eq_of_lt h]
  refine if_congr ?_ rfl rfl
  omega

theorem signed_eq (b : UInt8) (bytes : List UInt8) : signed (b :: bytes) =
    if natural (b :: bytes) < 128 * 256 ^ bytes.length then (natural (b :: bytes) : Int)
    else natural (b :: bytes) - (256 * 256 ^ bytes.length : Nat) := by
  have hlt := natural_lt (b :: bytes)
  have hpow : 256 ^ (b :: bytes).length = 2 * (128 * 256 ^ bytes.length) := by
    rw [List.length_cons, Nat.pow_succ]
    omega
  unfold signed
  rw [hpow] at hlt ⊢
  rw [bmod_of_lt hlt]
  refine if_congr Iff.rfl rfl ?_
  omega

theorem signed_singleton (b : UInt8) :
    signed [b] = if b.toNat < 128 then (b.toNat : Int) else b.toNat - 256 := by
  rw [signed_eq]
  rfl

/-- **The sign of a number** is that of its highest byte. -/
theorem signed_cons (b : UInt8) (h : bytes ≠ []) :
    signed (b :: bytes) = b.toNat + 256 * signed bytes := by
  obtain ⟨next, rest, rfl⟩ := List.exists_cons_of_ne_nil h
  have hb := b.toNat_lt
  rw [signed_eq, signed_eq, natural_cons b, List.length_cons, Nat.pow_succ]
  split <;> split <;> push_cast <;> omega

/-- A byte in front does not decide whether a number is in range. -/
theorem isSigned_succ_iff {n low : Nat} (h : low < 256) (x : Int) :
    IsSigned (n + 2) (low + 256 * x) ↔ IsSigned (n + 1) x := by
  unfold IsSigned
  rw [pow_succ, pow_succ]
  omega

/-! ### Decimal numbers -/

/-- A byte holds two decimal digits. -/
def IsPacked (b : UInt8) : Prop :=
  b.toNat / 16 ≤ 9 ∧ b.toNat % 16 ≤ 9

instance : DecidablePred IsPacked :=
  fun b => inferInstanceAs (Decidable (b.toNat / 16 ≤ 9 ∧ b.toNat % 16 ≤ 9))

/-- The number whose two decimal digits a byte holds. -/
def digits (b : UInt8) : Nat :=
  b.toNat / 16 * 10 + b.toNat % 16

/-- The number whose decimal digits these bytes hold. -/
def packed (bytes : List UInt8) : Nat :=
  Nat.ofDigits 100 (bytes.map digits)

theorem digits_lt {b : UInt8} (h : IsPacked b) : digits b < 100 := by
  obtain ⟨hhigh, hlow⟩ := h
  unfold digits
  omega

end Numeral

end Nmos6502
