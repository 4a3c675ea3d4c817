import Nmos6502.Proofs.Machine.SingleStep
import Nmos6502.Proofs.Processor.LongSums

/-!
# Numbers that a program adds

A machine adds or subtracts numbers of several bytes if it steps through an `ADC` or `SBC` for each place
with the carry that the place before has left (`Machine.Chained`). Each of these steps does what the
processor does in one place (`Machine.registers_step_of_combines`), so what the machine leaves in its
accumulator are the bytes of a long sum (`Machine.chain_of_chained`), and its flags tell of the whole
number (`Machine.sums_numbers`).
-/

namespace Nmos6502

open Numeral

namespace Registers

/-- Registers in which nothing is set but a carry and a mode. -/
def carrying (carry decimal : Bool) : Registers :=
  { reset 0 with flags := { Flags.clear with carry, decimal } }

variable {n : Nat} {exact exactSigned : Int} {carries : Prop} {bytes : List UInt8}
  {r r' : Registers}

/-- What is left of a binary sum is told by three flags, -/
theorem LeavesBinary.of_flags (h : LeavesBinary n exact exactSigned carries (bytes, r))
    (hflags : (r.flags.carry, r.flags.overflow, r.flags.negative) =
      (r'.flags.carry, r'.flags.overflow, r'.flags.negative)) :
    LeavesBinary n exact exactSigned carries (bytes, r') := by
  obtain ⟨hcarry, hsigns⟩ := Prod.mk.inj hflags
  obtain ⟨hoverflow, hnegative⟩ := Prod.mk.inj hsigns
  exact ⟨h.length, h.value, hcarry ▸ h.carry, hoverflow ▸ h.overflow, hnegative ▸ h.negative⟩

/-- and of a decimal sum by the carry. -/
theorem LeavesDecimal.of_carry (h : LeavesDecimal n exact carries (bytes, r))
    (hcarry : r.flags.carry = r'.flags.carry) : LeavesDecimal n exact carries (bytes, r') :=
  ⟨h.length, h.isPacked, h.value, hcarry ▸ h.carry⟩

end Registers

namespace Machine

/-! ### Places -/

/-- The machine is about to carry out an instruction on the byte in the accumulator and another. -/
def Combines (m : Machine) (i : Instruction) (b : UInt8) : Prop :=
  m.IsAtInstruction ∧ ∃ op, Opcode.decode? (m.bus.peek m.registers.pc) = some op ∧
    op.instruction = i ∧ m.registers.intakeOf op (m.bus.afterRead m.registers.pc) = b

/-- In each place the machine carries out an instruction, in one mode and with the carry that was left
in the place before. Whatever else it does between the places. -/
inductive Chained (i : Instruction) (decimal : Bool) : Bool → List (Machine × UInt8) → Prop
  | nil (c : Bool) : Chained i decimal c []
  | cons {m : Machine} {b : UInt8} {rest : List (Machine × UInt8)} : m.Combines i b →
      m.registers.flags.decimal = decimal →
      Chained i decimal m.step.machine.registers.flags.carry rest →
      Chained i decimal m.registers.flags.carry ((m, b) :: rest)

open Registers

/-- The bytes that are in the accumulator before the places, -/
def taken (places : List (Machine × UInt8)) : List UInt8 :=
  places.map fun p => p.1.registers.a

/-- and those that are there after them. -/
def left (places : List (Machine × UInt8)) : List UInt8 :=
  places.map fun p => p.1.step.machine.registers.a

variable {m : Machine} {i : Instruction} {decimal : Bool} {sum : UInt8 → UInt8 → Bool → Sum8}

theorem registers_step_of_combines {b : UInt8} (hi : i = .adc ∨ i = .sbc) (h : m.Combines i b) :
    ∃ pc, m.step.machine.registers = i.effect.outcome b { m.registers with pc } := by
  obtain ⟨hat, op, hop, rfl, rfl⟩ := h
  obtain ⟨-, hregisters, -⟩ := step_of_decode? hat hop
  have hcomputes : op.instruction.effect.computes = true := by
    rcases hi with h | h <;> rw [h] <;> rfl
  have hmodified : ∀ b r, op.instruction.effect.modified? b r = none := by
    intro b r
    rcases hi with h | h <;> rw [h] <;> rfl
  refine ⟨m.registers.pc + UInt16.ofNat op.size, ?_⟩
  rw [hregisters, value_performed hcomputes, hmodified, stored_none]

/-- **A machine that adds place by place** forms a long sum: what it leaves in the accumulator are its
bytes, and the flags behind the last place are those of the sum. -/
theorem chain_of_chained (hi : i = .adc ∨ i = .sbc) (hforms : Forms i decimal sum)
    {c : Bool} {places : List (Machine × UInt8)} (h : Chained i decimal c places) {r : Registers}
    (hc : r.flags.carry = c) (hd : r.flags.decimal = decimal) :
    let out := r.chain i (taken places) (places.map Prod.snd)
    out.1 = left places ∧
      ∀ last ∈ places.getLast?, let f := last.1.step.machine.registers.flags
        (out.2.flags.carry, out.2.flags.overflow, out.2.flags.negative) =
          (f.carry, f.overflow, f.negative) := by
  unfold taken left
  induction h generalizing r with
  | nil c => exact ⟨rfl, by simp⟩
  | @cons m b rest hm hmode hrest ih =>
    obtain ⟨pc, hstep⟩ := registers_step_of_combines hi hm
    rw [hforms b { m.registers with pc } hmode] at hstep
    have hsum : sum m.registers.a b r.flags.carry =
        sum m.registers.a b m.registers.flags.carry := by rw [hc]
    have ih' := ih (r := { r with a := m.registers.a }.withSum
      (sum m.registers.a b m.registers.flags.carry)) (by rw [hstep]; rfl) hd
    rw [List.map_cons, List.map_cons, chain_cons hforms hd, hsum, List.map_cons]
    refine ⟨?_, ?_⟩
    · rw [ih'.1, hstep]
      rfl
    · cases rest with
      | nil =>
        rintro last ⟨⟩
        simp only [List.getLast_singleton, hstep]
        rfl
      | cons p rest => exact ih'.2

/-! ### Numbers -/

/-- What a machine that adds or subtracts place by place makes of the number in its accumulator and
another. -/
structure SumsNumbers (c : Bool) (places : List (Machine × UInt8)) (last : Machine) : Prop where
  adc : Chained .adc false c places → LeavesBinary places.length
    (natural (taken places) + natural (places.map Prod.snd) + c.toNat)
    (signed (taken places) + signed (places.map Prod.snd) + c.toNat)
    (256 ^ places.length ≤
      (natural (taken places) + natural (places.map Prod.snd) + c.toNat : Int))
    (left places, last.step.machine.registers)
  sbc : Chained .sbc false c places → LeavesBinary places.length
    (natural (taken places) - natural (places.map Prod.snd) - (1 - c.toNat))
    (signed (taken places) - signed (places.map Prod.snd) - (1 - c.toNat))
    ((natural (places.map Prod.snd) : Int) + (1 - c.toNat) ≤ natural (taken places))
    (left places, last.step.machine.registers)
  adc_decimal : Chained .adc true c places →
    (∀ b ∈ taken places ++ places.map Prod.snd, IsPacked b) → LeavesDecimal places.length
      (packed (taken places) + packed (places.map Prod.snd) + c.toNat)
      (100 ^ places.length ≤
        (packed (taken places) + packed (places.map Prod.snd) + c.toNat : Int))
      (left places, last.step.machine.registers)
  sbc_decimal : Chained .sbc true c places →
    (∀ b ∈ taken places ++ places.map Prod.snd, IsPacked b) → LeavesDecimal places.length
      (packed (taken places) - packed (places.map Prod.snd) - (1 - c.toNat))
      ((packed (places.map Prod.snd) : Int) + (1 - c.toNat) ≤ packed (taken places))
      (left places, last.step.machine.registers)

/-- **Sums and differences of a machine.** Whatever it does between the places, if it spares the carry,
numbers of any length are added and subtracted. -/
theorem sums_numbers {c : Bool} {places : List (Machine × UInt8)} {last : Machine} {b : UInt8}
    (hlast : (last, b) ∈ places.getLast?) : SumsNumbers c places last := by
  have hlen : (taken places).length = places.length := List.length_map _
  have hlength : (taken places).length = (places.map Prod.snd).length := by
    rw [hlen, List.length_map]
  have hne : taken places ≠ [] := by
    rintro h
    rw [List.map_eq_nil_iff.mp h] at hlast
    cases hlast
  refine ⟨fun h => ?_, fun h => ?_, fun h hpacked => ?_, fun h hpacked => ?_⟩
  · obtain ⟨hbytes, hflags⟩ :=
      chain_of_chained (Or.inl rfl) forms_adc h (r := carrying c false) rfl rfl
    have hsum := leavesBinary_adc (r := carrying c false) hlength hne rfl
    rw [hlen] at hsum
    exact hbytes ▸ hsum.of_flags (hflags _ hlast)
  · obtain ⟨hbytes, hflags⟩ :=
      chain_of_chained (Or.inr rfl) forms_sbc h (r := carrying c false) rfl rfl
    have hsum := leavesBinary_sbc (r := carrying c false) hlength hne rfl
    rw [hlen] at hsum
    exact hbytes ▸ hsum.of_flags (hflags _ hlast)
  · obtain ⟨hbytes, hflags⟩ :=
      chain_of_chained (Or.inl rfl) forms_adc_decimal h (r := carrying c true) rfl rfl
    have hsum := leavesDecimal_adc (r := carrying c true) hlength rfl hpacked
    rw [hlen] at hsum
    exact hbytes ▸ hsum.of_carry (Prod.mk.inj (hflags _ hlast)).1
  · obtain ⟨hbytes, hflags⟩ :=
      chain_of_chained (Or.inr rfl) forms_sbc_decimal h (r := carrying c true) rfl rfl
    have hsum := leavesDecimal_sbc (r := carrying c true) hlength rfl hpacked
    rw [hlen] at hsum
    exact hbytes ▸ hsum.of_carry (Prod.mk.inj (hflags _ hlast)).1

/-- A program adds one to a number of two bytes, the higher of which it takes from X between the places.
The sum is no signed number of two bytes. -/
theorem sums_numbers_in_a_program :
    let code : AddressRange := ⟨0x0200, 0x0204, by decide⟩
    let bus : Bus := ⟨#[.ram ((Ram.new code).load 0 [0x69, 0x01, 0x8A, 0x69, 0x00])], .new⟩
    let m : Machine := { unreset bus .new none with
      registers := ⟨0xFF, 0x7F, 0, 0xFF, 0x0200, .clear⟩ }
    let places := [(m, 0x01), ((m.steps 2).machine, 0x00)]
    natural (left places) = 0x8000 ∧
      (m.steps 2).machine.step.machine.registers.flags.overflow = true ∧
      (m.steps 2).machine.step.machine.registers.flags.carry = false := by
  intro code bus m places
  let next := (m.steps 2).machine
  let opcode : Opcode := ⟨0x69, .adc, .immediate, 2⟩
  obtain ⟨hop, hbyte⟩ : Opcode.decode? (m.bus.peek m.registers.pc) = some opcode ∧
      m.registers.intakeOf opcode (m.bus.afterRead m.registers.pc) = 0x01 := by decide +kernel
  obtain ⟨hcycles, hsample, hop', hbyte', hdecimal, hcarry, htaken⟩ :
      next.cycles = 0 ∧ next.sample.1 = none ∧
        Opcode.decode? (next.bus.peek next.registers.pc) = some opcode ∧
        next.registers.intakeOf opcode (next.bus.afterRead next.registers.pc) = 0x00 ∧
        next.registers.flags.decimal = false ∧
        m.step.machine.registers.flags.carry = next.registers.flags.carry ∧
        taken places = [0xFF, 0x7F] := by decide +kernel
  have hfirst : m.Combines .adc 0x01 := ⟨⟨rfl, rfl⟩, opcode, hop, rfl, hbyte⟩
  have hsecond : next.Combines .adc 0x00 := ⟨⟨hcycles, hsample⟩, opcode, hop', rfl, hbyte'⟩
  have hchained : Chained .adc false false places :=
    .cons hfirst rfl (hcarry ▸ .cons hsecond hdecimal (.nil _))
  have hsums : SumsNumbers false places next := sums_numbers rfl
  have hsum := hsums.adc hchained
  rw [htaken] at hsum
  refine ⟨Int.ofNat_inj.mp (hsum.value.trans (by decide)), hsum.overflow.mpr (by decide), ?_⟩
  exact Bool.eq_false_iff.mpr (mt hsum.carry.mp (by decide))

end Machine

end Nmos6502
