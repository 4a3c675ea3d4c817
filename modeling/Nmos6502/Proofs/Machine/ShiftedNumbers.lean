import Nmos6502.Proofs.Machine.Listing
import Nmos6502.Proofs.Machine.SingleStep
import Nmos6502.Proofs.Processor.LongShifts

/-!
# Numbers that a program shifts

A machine that carries out one shift after the other, each on a cell of its RAM, performs them
(`Machine.performs_steps`): on its way to an operand it only reads. So the laws of long shifts hold of
what the machine leaves in the cells and in the carry (`Core.shifts_numbers`).
-/

namespace Nmos6502

open Numeral

/-! ### Steps of a machine -/

/-- To read changes no RAM. -/
theorem Bus.sameBeside_reads (bus : Bus) (addresses : List UInt16) :
    bus.SameBeside [] (bus.after (BusAct.reads addresses)) := by
  have hacts : BusAct.reads addresses =
      Entry.acts (addresses.map fun address => .read address 0) := by
    induction addresses with
    | nil => rfl
    | cons address rest ih => exact congrArg (BusAct.read address :: ·) ih
  intro i m hm
  rw [hacts]
  refine ⟨m, ram_after_of_no_write hm fun address value hmem => ?_, rfl, fun _ _ => rfl⟩
  obtain ⟨_, -, he⟩ := List.mem_map.mp hmem
  cases he

namespace Machine

variable {m : Machine} {i : Instruction} {a : UInt16} {ops : List (Instruction × UInt16)}

/-- The machine is about to carry out an instruction on the cell at an address. -/
def Applies (m : Machine) (i : Instruction) (a : UInt16) : Prop :=
  m.IsAtInstruction ∧ ∃ op, Opcode.decode? (m.bus.peek m.registers.pc) = some op ∧
    op.instruction = i ∧
    (m.registers.approach op.mode (m.bus.afterRead m.registers.pc)).place m.registers op.mode =
      .memory a

/-- A step performs the instruction that the machine is about to carry out. -/
theorem performs_step {s : Core} (h : m.Applies i a) (rest : m.step.machine.core.Performs ops s) :
    m.core.Performs ((i, a) :: ops) s := by
  obtain ⟨hat, op, hop, rfl, hplace⟩ := h
  have hpass : m.core.Passes ⟨{ m.registers with pc := m.registers.pc + UInt16.ofNat op.size },
      (m.bus.afterRead m.registers.pc).after
        (BusAct.reads (m.registers.wayTo op.mode (m.bus.afterRead m.registers.pc)))⟩ :=
    ⟨rfl, ⟨BusAct.reads (m.registers.pc :: m.registers.wayTo op.mode _), rfl⟩,
      m.bus.sameBeside_reads (m.registers.pc :: m.registers.wayTo op.mode _)⟩
  rw [core_step hat hop] at rest
  exact .pass hpass (.perform hplace rest)

/-- **A run of a machine** performs the instructions that its steps carry out. -/
theorem performs_steps (h : ∀ k i a, ops[k]? = some (i, a) → (m.steps k).machine.Applies i a) :
    m.core.Performs ops (m.steps ops.length).machine.core := by
  induction ops generalizing m with
  | nil => exact .done _
  | cons op ops ih =>
    have hfirst : m.Applies op.1 op.2 := h 0 op.1 op.2 rfl
    obtain ⟨hat, opcode, hop, -⟩ := hfirst
    obtain ⟨hresult, -⟩ := step_of_decode? hat hop
    have hsteps := fun k => (machine_steps_succ hresult k).1
    refine performs_step (h 0 op.1 op.2 rfl) ?_
    rw [List.length_cons, hsteps]
    refine ih fun k i a hk => ?_
    rw [← hsteps]
    exact h (k + 1) i a hk

end Machine

/-! ### Shifted numbers -/

namespace Core

variable {s : Core} {cells : List UInt16}

/-- What chains of shifts make of the number in some cells. -/
structure ShiftsNumbers (s : Core) (cells : List UInt16) : Prop where
  /-- Such a chain can be performed. -/
  performs : ∀ ops, ∃ s', s.Performs ops s'
  asl : ∀ {s' : Core}, s.Performs (chained .asl .rol cells) s' →
    s'.number cells = 2 * s.number cells % 256 ^ cells.length ∧
      s'.registers.flags.carry = (s.number cells).testBit (8 * cells.length - 1)
  rol : ∀ {s' : Core}, s.Performs (chained .rol .rol cells) s' →
    s'.number cells =
        (2 * s.number cells + s.registers.flags.carry.toNat) % 256 ^ cells.length ∧
      s'.registers.flags.carry = (s.number cells).testBit (8 * cells.length - 1)
  lsr : ∀ {s' : Core}, s.Performs (chained .lsr .ror cells.reverse) s' →
    s'.number cells = s.number cells / 2 ∧
      s'.registers.flags.carry.toNat = s.number cells % 2
  ror : ∀ {s' : Core}, s.Performs (chained .ror .ror cells.reverse) s' →
    s'.number cells =
        s.number cells / 2 + 2 ^ (8 * cells.length - 1) * s.registers.flags.carry.toNat ∧
      s'.registers.flags.carry.toNat = s.number cells % 2
  /-- Rotations upwards are undone by rotations downwards. -/
  restores : ∀ {s' : Core},
    s.Performs (chained .rol .rol cells ++ chained .ror .ror cells.reverse) s' →
      s'.number cells = s.number cells ∧ s'.registers.flags.carry = s.registers.flags.carry
  /-- Whatever shifts are performed on the cells, no other RAM is changed. -/
  sameBeside : ∀ {s' : Core} {ops : List (Instruction × UInt16)},
    (∀ op ∈ ops, op.1 ∈ Instruction.shifts ∧ op.2 ∈ cells) → s.Performs ops s' →
      s.bus.SameBeside cells s'.bus

variable {i : Instruction} {s' : Core}

/-- Upwards a number is doubled, and the carry is its top bit. -/
theorem number_upwards (hi : i = .asl ∨ i = .rol) (hne : cells ≠ []) (hcells : cells.Nodup)
    (hram : ∀ a ∈ cells, s.bus.IsRam a) (h : s.Performs (chained i .rol cells) s') :
    s'.number cells = (2 * s.number cells + (i.takenIn s.registers.flags.carry).toNat) %
        256 ^ cells.length ∧
      s'.registers.flags.carry = (s.number cells).testBit (8 * cells.length - 1) := by
  have hlaw := h.doubles hi hne hcells hram
  have hbefore := s.number_lt cells
  have hafter := s'.number_lt cells
  rw [pow_eq_two_mul (mt List.length_eq_zero_iff.mp hne)] at hlaw hbefore hafter ⊢
  rw [testBit_top hbefore]
  exact of_doubled hafter hlaw

/-- Downwards a number is halved, and the carry is its lowest bit. -/
theorem number_downwards (hi : i = .lsr ∨ i = .ror) (hne : cells ≠ []) (hcells : cells.Nodup)
    (hram : ∀ a ∈ cells, s.bus.IsRam a) (h : s.Performs (chained i .ror cells.reverse) s') :
    s'.number cells = s.number cells / 2 +
        2 ^ (8 * cells.length - 1) * (i.takenIn s.registers.flags.carry).toNat ∧
      s'.registers.flags.carry.toNat = s.number cells % 2 := by
  have hlaw := h.halves hi hne hcells hram
  rw [pow_eq_two_mul (mt List.length_eq_zero_iff.mp hne)] at hlaw
  exact of_halved hlaw

/-- Upwards and downwards again, nothing is lost. -/
theorem number_restored (hne : cells ≠ []) (hcells : cells.Nodup)
    (hram : ∀ a ∈ cells, s.bus.IsRam a)
    (h : s.Performs (chained .rol .rol cells ++ chained .ror .ror cells.reverse) s') :
    s'.number cells = s.number cells ∧ s'.registers.flags.carry = s.registers.flags.carry := by
  obtain ⟨top, hup, hdown⟩ := h.exists_of_append
  have hram' : ∀ a ∈ cells, top.bus.IsRam a := fun a ha => (hram a ha).of_leadsTo hup.leadsTo
  have hdoubled := hup.doubles (Or.inr rfl) hne hcells hram
  have hhalved := hdown.halves (Or.inr rfl) hne hcells hram'
  change _ = _ + 256 ^ cells.length * top.registers.flags.carry.toNat at hhalved
  change _ = _ + s.registers.flags.carry.toNat at hdoubled
  exact of_doubled_eq (hhalved.trans hdoubled)

/-- **Shifts of any length.** A number in distinct cells of a RAM is doubled by `ASL` and `ROL` upwards,
and halved by `LSR` and `ROR` downwards; a rotation takes the carry in as well. -/
theorem shifts_numbers (s : Core) (hne : cells ≠ []) (hcells : cells.Nodup)
    (hram : ∀ a ∈ cells, s.bus.IsRam a) : s.ShiftsNumbers cells where
  performs := Performs.exists_of s
  asl h := number_upwards (Or.inl rfl) hne hcells hram h
  rol h := number_upwards (Or.inr rfl) hne hcells hram h
  lsr h := number_downwards (Or.inl rfl) hne hcells hram h
  ror h := number_downwards (Or.inr rfl) hne hcells hram h
  restores h := number_restored hne hcells hram h
  sameBeside hops h := h.sameBeside hops hram

/-- A program doubles a number of two bytes. -/
theorem shifts_numbers_in_a_program :
    let zero : AddressRange := ⟨0x0010, 0x0011, by decide⟩
    let code : AddressRange := ⟨0x0200, 0x0203, by decide⟩
    let bus : Bus := ⟨#[.ram ((Ram.new zero).load 0 [0xC1, 0x80]),
      .ram ((Ram.new code).load 0 [0x06, 0x10, 0x26, 0x11])], .new⟩
    let m : Machine := { Machine.unreset bus .new none with
      registers := ⟨0, 0, 0, 0xFF, 0x0200, { Flags.clear with carry := true }⟩ }
    (m.steps 2).machine.core.number [0x0010, 0x0011] = 0x0182 ∧
      (m.steps 2).machine.registers.flags.carry = true := by
  intro zero code bus m
  have hram : ∀ a ∈ [0x0010, 0x0011], m.core.bus.IsRam a := by
    have hfirst : ∀ a, zero.contains a = true → m.core.bus.IsRam a := fun a ha =>
      ⟨0, _, rfl, ha, nofun⟩
    exact List.forall_mem_cons.mpr ⟨hfirst _ rfl, List.forall_mem_singleton.mpr (hfirst _ rfl)⟩
  have happlies : ∀ k i a, (chained .asl .rol [0x0010, 0x0011])[k]? = some (i, a) →
      (m.steps k).machine.Applies i a := by
    intro k i a hk
    match k, hk with
    | 0, rfl => exact ⟨⟨rfl, rfl⟩, ⟨0x06, .asl, .zeroPage, 5⟩, by decide +kernel⟩
    | 1, rfl =>
      exact ⟨⟨by decide +kernel, by decide +kernel⟩, ⟨0x26, .rol, .zeroPage, 5⟩, by decide +kernel⟩
  have hnumber : m.core.number [0x0010, 0x0011] = 0x80C1 := by decide +kernel
  have hshifts := @shifts_numbers [0x0010, 0x0011] m.core (by decide) (by decide) hram
  obtain ⟨hup, hcarry⟩ := hshifts.asl (Machine.performs_steps happlies)
  rw [hnumber] at hup hcarry
  exact ⟨hup.trans (by decide), hcarry.trans (by decide)⟩

end Core

end Nmos6502
