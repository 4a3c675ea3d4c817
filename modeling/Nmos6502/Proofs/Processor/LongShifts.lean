import Mathlib.Data.List.Nodup
import Nmos6502.Proofs.Assembly.OperandForms
import Nmos6502.Proofs.Processor.Numerals
import Nmos6502.Proofs.Processor.Results
import Nmos6502.Proofs.Processor.StackDiscipline

/-!
# Shifts of several bytes

A number in the cells of a RAM is shifted cell by cell, upwards from its lowest byte or downwards from
its highest one, and the carry takes the bit that leaves one byte into the next. Shifts are performed
one after the other, and in between anything may happen that spares the carry and all RAM
(`Core.Performs`).

One shift changes one cell and the carry (`Core.Performs.exists_shifted`), and what it does to the byte
is a law about two bytes' worth of bits (`Instruction.law_of_up`, `Instruction.law_of_down`). By
induction on the cells the laws carry over to the number (`Core.Performs.law_up`,
`Core.Performs.law_down`).
-/

namespace Nmos6502

open Numeral

/-! ### Shifted bytes -/

namespace Instruction

/-- The carry that a shift takes in. Only a rotation takes in any. -/
def takenIn (c : Bool) : Instruction → Bool
  | rol | ror => c
  | _ => false

variable {i : Instruction}

/-- Upwards the top bit leaves a byte, and the carry comes in at the bottom. -/
theorem law_of_up (hi : i = asl ∨ i = rol) : ∃ result out,
    i.effect = .modify (Registers.shift result out) ∧ ∀ m c,
      (result m c).toNat + 256 * (out m).toNat = 2 * m.toNat + (i.takenIn c).toNat := by
  rcases hi with rfl | rfl
  · refine ⟨_, _, rfl, ?_⟩
    exact forall_byte (by decide +kernel)
  · refine ⟨_, _, rfl, ?_⟩
    exact forall_byte (by decide +kernel)

/-- Downwards the lowest bit leaves a byte, and the carry comes in at the top. -/
theorem law_of_down (hi : i = lsr ∨ i = ror) : ∃ result out,
    i.effect = .modify (Registers.shift result out) ∧ ∀ m c,
      2 * (result m c).toNat + (out m).toNat = m.toNat + 256 * (i.takenIn c).toNat := by
  rcases hi with rfl | rfl
  · refine ⟨_, _, rfl, ?_⟩
    exact forall_byte (by decide +kernel)
  · refine ⟨_, _, rfl, ?_⟩
    exact forall_byte (by decide +kernel)

theorem effect_of_mem_shifts (hi : i ∈ shifts) :
    ∃ result out, i.effect = .modify (Registers.shift result out) := by
  simp only [shifts, List.mem_cons, List.not_mem_nil, or_false] at hi
  rcases hi with rfl | rfl | rfl | rfl <;> exact ⟨_, _, rfl⟩

end Instruction

/-! ### Cells of a RAM -/

namespace Bus

/-- No RAM has changed beside some cells. -/
def SameBeside (cells : List UInt16) (bus bus' : Bus) : Prop :=
  ∀ i m, bus.device? i = some (.ram m) → ∃ m', bus'.device? i = some (.ram m') ∧
    m'.range = m.range ∧ ∀ offset, (∀ a ∈ cells, bus.owner? a = some i →
      (m.range.offset a).toNat ≠ offset) → m'.cell offset = m.cell offset

namespace SameBeside

variable {cells : List UInt16} {bus bus' bus'' : Bus}

theorem refl (cells : List UInt16) (bus : Bus) : bus.SameBeside cells bus :=
  fun _ m hm => ⟨m, hm, rfl, fun _ _ => rfl⟩

theorem trans (h : bus.SameBeside cells bus') (hbus : bus.LeadsTo bus')
    (h' : bus'.SameBeside cells bus'') : bus.SameBeside cells bus'' := by
  intro i m hm
  obtain ⟨m', hm', hrange, hcell⟩ := h i m hm
  obtain ⟨m'', hm'', hrange', hcell'⟩ := h' i m' hm'
  refine ⟨m'', hm'', hrange'.trans hrange, fun offset hoffset => ?_⟩
  rw [hcell' offset, hcell offset hoffset]
  intro a ha howner
  obtain ⟨acts, rfl⟩ := hbus
  rw [owner?_after] at howner
  rw [hrange]
  exact hoffset a ha howner

theorem mono {others : List UInt16} (h : bus.SameBeside cells bus') (hsub : cells ⊆ others) :
    bus.SameBeside others bus' := by
  intro i m hm
  obtain ⟨m', hm', hrange, hcell⟩ := h i m hm
  exact ⟨m', hm', hrange, fun offset hoffset =>
    hcell offset fun a ha => hoffset a (hsub ha)⟩

theorem write {a : UInt16} (ha : a ∈ cells) (value : UInt8) :
    bus.SameBeside cells (bus.write a value) := by
  intro i m hm
  obtain ⟨m', hm', hrange, hcell⟩ := cell_after_of_not_written hm [.write a value]
  refine ⟨m', hm', hrange, fun offset hoffset => hcell offset fun address v hmem => ?_⟩
  obtain ⟨rfl, rfl⟩ := Entry.write.inj (List.mem_singleton.mp hmem)
  exact hoffset address ha

/-- All other RAM still holds what it held. -/
theorem peek (h : bus.SameBeside cells bus') (hbus : bus.LeadsTo bus') {a : UInt16}
    (hram : bus.IsRam a) (ha : a ∉ cells) : bus'.peek a = bus.peek a := by
  obtain ⟨acts, rfl⟩ := hbus
  obtain ⟨i, m, hfirst⟩ := hram
  obtain ⟨m', hm', hrange, hcell⟩ := h i m hfirst.1
  have hfirst' : (bus.after acts).IsFirst a i (.ram m') := by
    obtain ⟨howner, -⟩ := isFirst_iff.mp hfirst
    exact isFirst_iff.mpr ⟨(bus.owner?_after acts a).trans howner, hm'⟩
  have hbefore : bus.peek a = m.cell (m.range.offset a).toNat := hfirst.read
  have hafter : (bus.after acts).peek a = m'.cell (m'.range.offset a).toNat := hfirst'.read
  rw [hafter, hbefore, hrange]
  refine hcell _ fun b hb _ he => ha ?_
  rwa [← offset_inj.mp (UInt16.toNat_inj.mp he)]

end SameBeside

end Bus

/-! ### One shift after the other -/

namespace Core

/-- What happens between two shifts spares the carry and all RAM. -/
structure Passes (s s' : Core) : Prop where
  carry : s'.registers.flags.carry = s.registers.flags.carry
  leadsTo : s.bus.LeadsTo s'.bus
  sameBeside : s.bus.SameBeside [] s'.bus

/-- Instructions are performed one after the other, each on its cell, and other things happen in
between. -/
inductive Performs : Core → List (Instruction × UInt16) → Core → Prop
  | done (s : Core) : Performs s [] s
  | pass {s s' s'' : Core} {ops : List (Instruction × UInt16)} (h : s.Passes s')
    (rest : Performs s' ops s'') : Performs s ops s''
  | perform {s s' : Core} {i : Instruction} {a : UInt16} {l : Location}
    {ops : List (Instruction × UInt16)} (hl : l.place = .memory a)
    (rest : Performs (s.perform i l) ops s') : Performs s ((i, a) :: ops) s'

variable {s s' s'' : Core} {i : Instruction} {a : UInt16} {ops : List (Instruction × UInt16)}
  {cells : List UInt16}

theorem Passes.refl (s : Core) : s.Passes s :=
  ⟨rfl, .refl _, .refl _ _⟩

theorem Passes.trans (h : s.Passes s') (h' : s'.Passes s'') : s.Passes s'' :=
  ⟨h'.carry.trans h.carry, h.leadsTo.trans h'.leadsTo, h.sameBeside.trans h.leadsTo h'.sameBeside⟩

/-- A shift of a cell of a RAM replaces what is there. -/
theorem perform_shift {result : UInt8 → Bool → UInt8} {out : UInt8 → Bool} {l : Location}
    (hi : i.effect = .modify (Registers.shift result out)) (hl : l.place = .memory a)
    (hram : s.bus.IsRam a) :
    (s.perform i l).bus =
        s.bus.write a (result (s.bus.peek a) s.registers.flags.carry) ∧
      (s.perform i l).registers.flags.carry = out (s.bus.peek a) := by
  obtain ⟨place, crossed⟩ := l
  obtain rfl : place = .memory a := hl
  unfold perform
  rw [hi]
  refine ⟨?_, rfl⟩
  change (s.bus.afterRead a).write a _ = _
  rw [hram.isMemory.afterRead]
  rfl

namespace Performs

/-- Any instructions can be performed. -/
theorem exists_of (s : Core) (ops : List (Instruction × UInt16)) : ∃ s', s.Performs ops s' := by
  induction ops generalizing s with
  | nil => exact ⟨s, .done s⟩
  | cons op ops ih =>
    obtain ⟨s', h⟩ := ih (s.perform op.1 (.direct op.2))
    exact ⟨s', .perform rfl h⟩

theorem leadsTo (h : s.Performs ops s') : s.bus.LeadsTo s'.bus := by
  induction h with
  | done s => exact .refl _
  | pass h rest ih => exact h.leadsTo.trans ih
  | perform hl rest ih => exact (leadsTo_perform _ _ _).trans ih

theorem passes_of_nil (h : s.Performs [] s') : s.Passes s' := by
  generalize hops : ([] : List (Instruction × UInt16)) = ops at h
  induction h with
  | done s => exact .refl s
  | pass h rest ih => exact h.trans (ih hops)
  | perform hl rest ih => cases hops

theorem exists_of_cons (h : s.Performs ((i, a) :: ops) s'') : ∃ s' l, s.Passes s' ∧
    l.place = .memory a ∧ (s'.perform i l).Performs ops s'' := by
  generalize hops : (i, a) :: ops = all at h
  induction h with
  | done s => cases hops
  | pass h rest ih =>
    obtain ⟨s', l, hpass, hl, hrest⟩ := ih hops
    exact ⟨s', l, h.trans hpass, hl, hrest⟩
  | perform hl rest ih =>
    cases hops
    exact ⟨_, _, .refl _, hl, rest⟩

theorem exists_of_append {others : List (Instruction × UInt16)} (h : s.Performs (ops ++ others) s'') :
    ∃ s', s.Performs ops s' ∧ s'.Performs others s'' := by
  induction ops generalizing s with
  | nil => exact ⟨s, .done s, h⟩
  | cons op ops ih =>
    obtain ⟨s₁, l, hpass, hl, hrest⟩ := exists_of_cons h
    obtain ⟨s', hops, hothers⟩ := ih hrest
    exact ⟨s', .pass hpass (.perform hl hops), hothers⟩

/-- **One shift** puts a shifted byte into its cell and the bit that leaves it into the carry, and
changes no other RAM. -/
theorem exists_shifted {result : UInt8 → Bool → UInt8} {out : UInt8 → Bool}
    (hi : i.effect = .modify (Registers.shift result out)) (hram : s.bus.IsRam a)
    (h : s.Performs ((i, a) :: ops) s'') : ∃ s' : Core, s'.Performs ops s'' ∧
      s'.bus.peek a = result (s.bus.peek a) s.registers.flags.carry ∧
      s'.registers.flags.carry = out (s.bus.peek a) ∧
      s.bus.LeadsTo s'.bus ∧ s.bus.SameBeside [a] s'.bus := by
  obtain ⟨s₁, l, hpass, hl, hrest⟩ := exists_of_cons h
  have hram' : s₁.bus.IsRam a := hram.of_leadsTo hpass.leadsTo
  obtain ⟨hbus, hcarry⟩ := perform_shift hi hl hram'
  have hpeek : s₁.bus.peek a = s.bus.peek a :=
    hpass.sameBeside.peek hpass.leadsTo hram List.not_mem_nil
  rw [hpeek, hpass.carry] at hbus
  rw [hpeek] at hcarry
  refine ⟨_, hrest, ?_, hcarry, hpass.leadsTo.trans (leadsTo_perform _ _ _), ?_⟩
  · rw [hbus]
    exact hram'.peek_write _
  · rw [hbus]
    exact (hpass.sameBeside.mono (List.nil_subset _)).trans hpass.leadsTo
      (.write (List.mem_singleton_self a) _)

/-- **Shifts leave all RAM as it is** beside their cells. -/
theorem sameBeside (hops : ∀ op ∈ ops, op.1 ∈ Instruction.shifts ∧ op.2 ∈ cells)
    (hram : ∀ a ∈ cells, s.bus.IsRam a) (h : s.Performs ops s') :
    s.bus.SameBeside cells s'.bus := by
  induction ops generalizing s with
  | nil => exact h.passes_of_nil.sameBeside.mono (List.nil_subset _)
  | cons op ops ih =>
    obtain ⟨⟨hshift, hcell⟩, hops⟩ := List.forall_mem_cons.mp hops
    obtain ⟨result, out, heffect⟩ := Instruction.effect_of_mem_shifts hshift
    obtain ⟨s₁, hrest, -, -, hleads, hsame⟩ := exists_shifted heffect (hram _ hcell) h
    have hram' : ∀ a ∈ cells, s₁.bus.IsRam a := fun a ha => (hram a ha).of_leadsTo hleads
    exact (hsame.mono fun _ ha => List.mem_singleton.mp ha ▸ hcell).trans hleads
      (ih hops hram' hrest)

end Performs

/-! ### Numbers in cells -/

/-- The number in some cells, the lowest byte first. -/
def number (s : Core) (cells : List UInt16) : Nat :=
  natural (cells.map s.bus.peek)

/-- A shift of the first cell, and rotations of the others one after the other. -/
def chained (first next : Instruction) : List UInt16 → List (Instruction × UInt16)
  | [] => []
  | a :: rest => (first, a) :: rest.map fun b => (next, b)

theorem number_cons (s : Core) (a : UInt16) (cells : List UInt16) :
    s.number (a :: cells) = (s.bus.peek a).toNat + 256 * s.number cells :=
  natural_cons _ _

theorem number_reverse_cons (s : Core) (a : UInt16) (cells : List UInt16) :
    s.number (a :: cells).reverse =
      s.number cells.reverse + 256 ^ cells.length * (s.bus.peek a).toNat := by
  unfold number natural
  rw [List.reverse_cons, List.map_append, List.map_append, Nat.ofDigits_append, List.length_map,
    List.length_map, List.length_reverse, List.map_singleton, List.map_singleton,
    Nat.ofDigits_singleton]

theorem number_lt (s : Core) (cells : List UInt16) : s.number cells < 256 ^ cells.length := by
  have hlt := natural_lt (cells.map s.bus.peek)
  rwa [List.length_map] at hlt

/-- A number stays what it is while nothing is stored in its cells. -/
theorem number_eq {others : List UInt16} (h : s.bus.SameBeside others s'.bus)
    (hbus : s.bus.LeadsTo s'.bus) (hram : ∀ a ∈ cells, s.bus.IsRam a)
    (hcells : ∀ a ∈ cells, a ∉ others) : s'.number cells = s.number cells := by
  unfold number
  rw [List.map_congr_left fun a ha => h.peek hbus (hram a ha) (hcells a ha)]

theorem forall_mem_map_rotation {next : Instruction} (hnext : next ∈ Instruction.shifts) :
    ∀ op ∈ cells.map fun b => (next, b), op.1 ∈ Instruction.shifts ∧ op.2 ∈ cells := by
  intro op hop
  obtain ⟨b, hb, rfl⟩ := List.mem_map.mp hop
  exact ⟨hnext, hb⟩

namespace Performs

/-- At the head of a chain, a shift leaves the numbers in the other cells as they are, and the rotations
that follow leave its own byte as it is. -/
theorem exists_chained {next : Instruction} {result : UInt8 → Bool → UInt8} {out : UInt8 → Bool}
    (hi : i.effect = .modify (Registers.shift result out)) (hnext : next ∈ Instruction.shifts)
    (hcells : (a :: cells).Nodup) (hram : ∀ b ∈ a :: cells, s.bus.IsRam b)
    (h : s.Performs (chained i next (a :: cells)) s'') :
    ∃ s' : Core, s'.Performs (cells.map fun b => (next, b)) s'' ∧
      s''.bus.peek a = result (s.bus.peek a) s.registers.flags.carry ∧
      s'.registers.flags.carry = out (s.bus.peek a) ∧
      (∀ others ⊆ cells, s'.number others = s.number others) ∧ ∀ b ∈ cells, s'.bus.IsRam b := by
  obtain ⟨ha, -⟩ := List.nodup_cons.mp hcells
  obtain ⟨hrama, hramc⟩ := List.forall_mem_cons.mp hram
  obtain ⟨s', hrest, hpeek, hcarry, hleads, hsame⟩ := exists_shifted hi hrama h
  have hram' : ∀ b ∈ cells, s'.bus.IsRam b := fun b hb => (hramc b hb).of_leadsTo hleads
  refine ⟨s', hrest, ?_, hcarry, fun others hsub => ?_, hram'⟩
  · rw [← hpeek]
    exact (hrest.sameBeside (forall_mem_map_rotation hnext) hram').peek hrest.leadsTo
      (hrama.of_leadsTo hleads) ha
  · refine number_eq hsame hleads (fun b hb => hramc b (hsub hb)) fun b hb he => ?_
    exact ha (List.mem_singleton.mp he ▸ hsub hb)

/-- **Upwards** a number is doubled: the carry comes in at the bottom, and the top bit leaves it. -/
theorem law_up (hi : i = .asl ∨ i = .rol) (hcells : (a :: cells).Nodup)
    (hram : ∀ b ∈ a :: cells, s.bus.IsRam b) (h : s.Performs (chained i .rol (a :: cells)) s'') :
    s''.number (a :: cells) + 256 ^ (a :: cells).length * s''.registers.flags.carry.toNat =
      2 * s.number (a :: cells) + (i.takenIn s.registers.flags.carry).toNat := by
  induction cells generalizing i a s with
  | nil =>
    obtain ⟨result, out, heffect, hlaw⟩ := Instruction.law_of_up hi
    have hbyte := hlaw (s.bus.peek a) s.registers.flags.carry
    obtain ⟨s', hrest, hpeek, hcarry, -⟩ := exists_chained heffect (by decide) hcells hram h
    rw [← hrest.passes_of_nil.carry] at hcarry
    rw [number_cons, number_cons, hpeek, hcarry]
    change _ + 256 * 0 + 256 ^ 1 * _ = 2 * (_ + 256 * 0) + _
    omega
  | cons b cells ih =>
    obtain ⟨result, out, heffect, hlaw⟩ := Instruction.law_of_up hi
    have hbyte := hlaw (s.bus.peek a) s.registers.flags.carry
    obtain ⟨s', hrest, hpeek, hcarry, hnumber, hram'⟩ :=
      exists_chained heffect (by decide) hcells hram h
    have hnext := ih (Or.inr rfl) (List.nodup_cons.mp hcells).2 hram' hrest
    rw [hnumber _ (List.Subset.refl _)] at hnext
    change _ = _ + s'.registers.flags.carry.toNat at hnext
    rw [hcarry] at hnext
    rw [number_cons s'', number_cons s, hpeek, List.length_cons, Nat.pow_succ', Nat.mul_assoc]
    omega

/-- **Downwards** a number is halved: the carry comes in at the top, and the lowest bit leaves it. -/
theorem law_down (hi : i = .lsr ∨ i = .ror) (hcells : (a :: cells).Nodup)
    (hram : ∀ b ∈ a :: cells, s.bus.IsRam b) (h : s.Performs (chained i .ror (a :: cells)) s'') :
    2 * s''.number (a :: cells).reverse + s''.registers.flags.carry.toNat =
      s.number (a :: cells).reverse +
        256 ^ (a :: cells).length * (i.takenIn s.registers.flags.carry).toNat := by
  induction cells generalizing i a s with
  | nil =>
    obtain ⟨result, out, heffect, hlaw⟩ := Instruction.law_of_down hi
    have hbyte := hlaw (s.bus.peek a) s.registers.flags.carry
    obtain ⟨s', hrest, hpeek, hcarry, -⟩ := exists_chained heffect (by decide) hcells hram h
    rw [← hrest.passes_of_nil.carry] at hcarry
    rw [number_reverse_cons, number_reverse_cons, hpeek, hcarry]
    change 2 * (0 + 1 * _) + _ = 0 + 1 * _ + 256 ^ 1 * _
    omega
  | cons b cells ih =>
    obtain ⟨result, out, heffect, hlaw⟩ := Instruction.law_of_down hi
    have hbyte := hlaw (s.bus.peek a) s.registers.flags.carry
    obtain ⟨s', hrest, hpeek, hcarry, hnumber, hram'⟩ :=
      exists_chained heffect (by decide) hcells hram h
    have hnext := ih (Or.inr rfl) (List.nodup_cons.mp hcells).2 hram' hrest
    rw [hnumber _ fun _ => List.mem_reverse.mp] at hnext
    change _ = _ + _ * s'.registers.flags.carry.toNat at hnext
    rw [hcarry] at hnext
    have hscaled := congrArg (256 ^ (b :: cells).length * ·) hbyte
    rw [Nat.mul_add, Nat.mul_add, Nat.mul_left_comm, ← Nat.mul_assoc _ 256, ← Nat.pow_succ] at hscaled
    rw [number_reverse_cons s'', number_reverse_cons s, hpeek, Nat.mul_add]
    change _ = _ + 256 ^ (b :: cells).length.succ * _
    omega

/-- A number in distinct cells, shifted upwards from its lowest byte. -/
theorem doubles (hi : i = .asl ∨ i = .rol) (hne : cells ≠ []) (hcells : cells.Nodup)
    (hram : ∀ b ∈ cells, s.bus.IsRam b) (h : s.Performs (chained i .rol cells) s') :
    s'.number cells + 256 ^ cells.length * s'.registers.flags.carry.toNat =
      2 * s.number cells + (i.takenIn s.registers.flags.carry).toNat := by
  obtain ⟨a, rest, rfl⟩ := List.exists_cons_of_ne_nil hne
  exact law_up hi hcells hram h

/-- A number in distinct cells, shifted downwards from its highest byte. -/
theorem halves (hi : i = .lsr ∨ i = .ror) (hne : cells ≠ []) (hcells : cells.Nodup)
    (hram : ∀ b ∈ cells, s.bus.IsRam b) (h : s.Performs (chained i .ror cells.reverse) s') :
    2 * s'.number cells + s'.registers.flags.carry.toNat =
      s.number cells + 256 ^ cells.length * (i.takenIn s.registers.flags.carry).toNat := by
  obtain ⟨a, rest, hreverse⟩ :=
    List.exists_cons_of_ne_nil (mt List.reverse_eq_nil_iff.mp hne)
  obtain rfl : cells = (a :: rest).reverse := by rw [← hreverse, List.reverse_reverse]
  rw [List.reverse_reverse] at h
  rw [List.length_reverse]
  exact law_down hi (List.nodup_reverse.mp hcells) (fun b hb => hram b (List.mem_reverse.mpr hb)) h

end Performs

end Core

/-! ### Doubles and halves -/

namespace Numeral

variable {value half x : Nat} {c carry : Bool}

/-- What is left of a doubled number, and the bit that leaves it. -/
theorem of_doubled (hvalue : value < 2 * half)
    (h : value + 2 * half * carry.toNat = 2 * x + c.toNat) :
    value = (2 * x + c.toNat) % (2 * half) ∧ carry = decide (half ≤ x) := by
  have hc := c.toNat_le
  cases carry with
  | false =>
    rw [Bool.toNat_false, Nat.mul_zero] at h
    refine ⟨?_, (decide_eq_false (by omega)).symm⟩
    rw [← h, Nat.add_zero, Nat.mod_eq_of_lt hvalue]
  | true =>
    rw [Bool.toNat_true, Nat.mul_one] at h
    refine ⟨?_, (decide_eq_true (by omega)).symm⟩
    rw [← h, Nat.add_mod_right, Nat.mod_eq_of_lt hvalue]

/-- What is left of a halved number, and the bit that leaves it. -/
theorem of_halved (h : 2 * value + carry.toNat = x + 2 * half * c.toNat) :
    value = x / 2 + half * c.toNat ∧ carry.toNat = x % 2 := by
  have hcarry := carry.toNat_le
  rw [Nat.mul_assoc] at h
  omega

/-- A bit behind a number can be told from it. -/
theorem of_doubled_eq (h : 2 * value + carry.toNat = 2 * x + c.toNat) : value = x ∧ carry = c := by
  have hc := c.toNat_le
  have hcarry := carry.toNat_le
  have hsame : carry.toNat = c.toNat := by omega
  refine ⟨by omega, ?_⟩
  cases carry <;> cases c <;> first | rfl | exact absurd hsame (by decide)

/-- The top bit of a number tells whether it is in the upper half. -/
theorem testBit_top {n : Nat} (hx : x < 2 * 2 ^ n) : x.testBit n = decide (2 ^ n ≤ x) := by
  have hdiv : x / 2 ^ n < 2 := Nat.div_lt_of_lt_mul (by rwa [Nat.mul_comm])
  rw [Nat.testBit_eq_decide_div_mod_eq, decide_eq_decide, ← Nat.one_le_div_iff (Nat.two_pow_pos n)]
  generalize x / 2 ^ n = top at hdiv
  omega

theorem pow_eq_two_mul {n : Nat} (h : n ≠ 0) : 256 ^ n = 2 * 2 ^ (8 * n - 1) := by
  have hbits : 8 * n - 1 + 1 = 8 * n := by omega
  calc 256 ^ n = 2 ^ (8 * n) := (Nat.pow_mul 2 8 n).symm
    _ = 2 ^ (8 * n - 1 + 1) := by rw [hbits]
    _ = 2 * 2 ^ (8 * n - 1) := Nat.pow_succ'

end Numeral

end Nmos6502
