/-!
# Decimal text

A natural number as its decimal digits, without leading zeros, and the number that digits stand for.
Reading the written digits gives the number back (`value_digits`).
-/

namespace Nmos6502.Decimal

/-- The digit for a number below ten. -/
def digit (n : Nat) : Char :=
  Char.ofNat (n + 48)

/-- Whether a character is one of the ten digits. -/
def isDigit (c : Char) : Bool :=
  '0' ≤ c && c ≤ '9'

/-- The digits of a number, the most significant first. -/
def digits (n : Nat) : List Char :=
  if n < 10 then [digit n] else digits (n / 10) ++ [digit (n % 10)]

/-- One digit more at the end of a number. -/
def append (n : Nat) (c : Char) : Nat :=
  n * 10 + (c.toNat - 48)

/-- The number that a sequence of digits stands for. -/
def value (cs : List Char) : Nat :=
  cs.foldl append 0

theorem append_digit (n : Nat) {d : Nat} (h : d < 10) : append n (digit d) = n * 10 + d := by
  have : ∀ m : Fin 10, (digit m.val).toNat - 48 = m.val := by decide
  rw [append, this ⟨d, h⟩]

theorem value_digits (n : Nat) : value (digits n) = n := by
  rw [digits]
  split
  · next h => simpa [value] using append_digit 0 h
  · have ih := value_digits (n / 10)
    rw [value] at ih ⊢
    rw [List.foldl_append, ih, List.foldl_cons, List.foldl_nil, append_digit _ (by omega)]
    omega
termination_by n

theorem isDigit_of_mem_digits (n : Nat) : ∀ c ∈ digits n, isDigit c = true := by
  have hd : ∀ m : Fin 10, isDigit (digit m.val) = true := by decide
  intro c hc
  rw [digits] at hc
  split at hc
  · next h =>
    rw [List.mem_singleton] at hc
    exact hc ▸ hd ⟨n, h⟩
  · rcases List.mem_append.mp hc with hc | hc
    · exact isDigit_of_mem_digits (n / 10) c hc
    · rw [List.mem_singleton] at hc
      exact hc ▸ hd ⟨n % 10, by omega⟩
termination_by n

end Nmos6502.Decimal
