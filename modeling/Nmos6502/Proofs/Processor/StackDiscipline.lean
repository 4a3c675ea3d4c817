import Nmos6502.Proofs.Bus.Memory
import Nmos6502.Proofs.Processor.Traffic

/-!
# The discipline of the stack

What one instruction puts onto the stack, another takes off again: `PHA` and `PLA`, `PHP` and `PLP`,
`JSR` and `RTS` open and close a level (`StackLevel`). Levels lie one in another and one behind
another, and anything else may happen in between (`Nesting`), as long as it leaves the stack pointer
and page one alone.

The bytes that are on the stack are followed as a list (`Bus.Stacks`). The stack wraps around in its
page, so that up to 256 bytes have room, wherever the stack pointer is. A level that is opened puts its
bytes before the others (`Bus.Stacks.opened`), and one that is closed finds them there
(`Bus.Stacks.closed`). By induction on the nesting, the bytes below stay what they were
(`Bus.Stacks.run`).
-/

namespace Nmos6502

open Registers (stackAddress)

/-! ### Acts that spare an address -/

/-- An act stores nothing for an address in the device that answers there. -/
def BusAct.Spares (bus : Bus) (address : UInt16) (a : BusAct) : Prop :=
  ∀ i d, bus.IsFirst address i d → a.stored? address i (d.range.offset address).toNat = none

/-- A write spares every address of a RAM but that to which it goes. -/
theorem BusAct.spares_write_iff {bus : Bus} {address other : UInt16} {value : UInt8}
    (h : bus.IsRam address) : (BusAct.write other value).Spares bus address ↔ other ≠ address := by
  refine ⟨?_, fun hne _ _ _ => if_neg hne⟩
  rintro hspares rfl
  obtain ⟨i, m, hfirst⟩ := h
  have hnone := hspares i _ hfirst
  rw [stored?_write, if_pos rfl] at hnone
  cases hnone

namespace Bus

variable {bus : Bus} {address : UInt16} {a : BusAct}

/-- One bus becomes another by what happens on it. -/
def LeadsTo (bus bus' : Bus) : Prop :=
  ∃ acts, bus' = bus.after acts

theorem LeadsTo.refl (bus : Bus) : bus.LeadsTo bus :=
  ⟨[], rfl⟩

theorem LeadsTo.trans {bus' bus'' : Bus} (h : bus.LeadsTo bus') (h' : bus'.LeadsTo bus'') :
    bus.LeadsTo bus'' := by
  obtain ⟨acts, rfl⟩ := h
  obtain ⟨others, rfl⟩ := h'
  exact ⟨acts ++ others, List.foldl_append.symm⟩

/-- RAM stays RAM, whatever happens. -/
theorem IsRam.of_leadsTo {bus' : Bus} (h : bus.IsRam address) (hbus : bus.LeadsTo bus') :
    bus'.IsRam address := by
  obtain ⟨acts, rfl⟩ := hbus
  exact h.after acts

/-- RAM holds what it held where nothing is stored. -/
theorem IsRam.peek_apply (h : bus.IsRam address) (ha : a.Spares bus address) :
    (a.apply bus).peek address = bus.peek address := by
  obtain ⟨i, m, hfirst⟩ := h
  obtain ⟨m', hm', hrange, hcell⟩ := evolve_ram hfirst.owner? hfirst.2.1 [a]
  have hnone : a.stored? address i (m.range.offset address).toNat = none := ha i (.ram m) hfirst
  rw [List.reverse_singleton, List.findSome?_singleton, hnone] at hcell
  have hafter := (hfirst.after [a]).read
  have hbefore := hfirst.read
  rw [hm'] at hafter
  change (bus.after [a]).peek address = m'.cell (m'.range.offset address).toNat at hafter
  rw [hrange, hcell] at hafter
  exact hafter.trans hbefore.symm

/-- What spares an address goes on doing so, whatever happens. -/
theorem IsRam.spares_of_leadsTo {bus' : Bus} (h : bus.IsRam address) (ha : a.Spares bus address)
    (hbus : bus.LeadsTo bus') : a.Spares bus' address := by
  obtain ⟨acts, rfl⟩ := hbus
  obtain ⟨i, m, hfirst⟩ := h
  obtain ⟨m', hm', hrange, -⟩ := evolve_ram hfirst.owner? hfirst.2.1 acts
  intro j d hd
  obtain ⟨howner, hdevice⟩ := isFirst_iff.mp hd
  obtain ⟨howner', hdevice'⟩ := isFirst_iff.mp (hfirst.after acts)
  obtain rfl : i = j := Option.some.inj (howner'.symm.trans howner)
  rw [hm'] at hdevice'
  obtain rfl : .ram m' = d := Option.some.inj (hdevice'.symm.trans hdevice)
  have hspares := ha i _ hfirst
  change a.stored? address i (m'.range.offset address).toNat = none
  rw [hrange]
  exact hspares

end Bus

/-! ### Bytes on the stack -/

namespace Bus

/-- Page one is RAM, and there are bytes on the stack, the one on top first. -/
structure Stacks (bus : Bus) (sp : UInt8) (bytes : List UInt8) : Prop where
  isRam (slot : UInt8) : bus.IsRam (stackAddress slot)
  peek {k : Nat} {b : UInt8} : bytes[k]? = some b →
    bus.peek (stackAddress (sp + 1 + UInt8.ofNat k)) = b

namespace Stacks

variable {bus : Bus} {sp : UInt8} {bytes : List UInt8}

/-- There is room for one byte more in the page. -/
theorem push (h : bus.Stacks sp bytes) (hroom : bytes.length < 256) (value : UInt8) :
    (bus.write (stackAddress sp) value).Stacks (sp - 1) (value :: bytes) where
  isRam slot := (h.isRam slot).after [.write (stackAddress sp) value]
  peek {k b} hb := by
    rw [UInt8.sub_add_cancel]
    cases k with
    | zero =>
      obtain rfl : value = b := Option.some.inj hb
      have hzero : sp + UInt8.ofNat 0 = sp := UInt8.add_zero sp
      rw [hzero]
      exact (h.isRam sp).peek_write value
    | succ k =>
      rw [List.getElem?_cons_succ] at hb
      obtain ⟨hlt, -⟩ := List.getElem?_eq_some_iff.mp hb
      have hsucc : sp + UInt8.ofNat (k + 1) = sp + 1 + UInt8.ofNat k := by
        rw [Nat.add_comm, UInt8.ofNat_add, ← UInt8.add_assoc]
        rfl
      -- All 256 addresses of the page are different.
      have hne : sp ≠ sp + UInt8.ofNat (k + 1) := by
        intro he
        have hnat := congrArg UInt8.toNat he
        rw [UInt8.toNat_add, UInt8.toNat_ofNat'] at hnat
        have := sp.toNat_lt
        omega
      have hspares : (BusAct.write (stackAddress sp) value).Spares bus
          (stackAddress (sp + UInt8.ofNat (k + 1))) :=
        (BusAct.spares_write_iff (h.isRam _)).mpr (mt Registers.stackAddress_inj.mp hne)
      refine ((h.isRam _).peek_apply hspares).trans ?_
      rw [hsucc]
      exact h.peek hb

theorem peek_top {b : UInt8} (h : bus.Stacks sp (b :: bytes)) :
    bus.peek (stackAddress (sp + 1)) = b := by
  have hzero : sp + 1 + UInt8.ofNat 0 = sp + 1 := UInt8.add_zero (sp + 1)
  rw [← hzero]
  exact h.peek rfl

theorem pull {b : UInt8} (h : bus.Stacks sp (b :: bytes)) : bus.Stacks (sp + 1) bytes where
  isRam := h.isRam
  peek {k b'} hb := by
    have hsucc : sp + 1 + 1 + UInt8.ofNat k = sp + 1 + UInt8.ofNat (k + 1) := by
      rw [Nat.add_comm, UInt8.ofNat_add, UInt8.add_assoc (sp + 1)]
      rfl
    rw [hsucc]
    exact h.peek hb

/-- To look at the stack changes nothing. -/
theorem afterRead (h : bus.Stacks sp bytes) (slot : UInt8) :
    bus.afterRead (stackAddress slot) = bus :=
  (h.isRam slot).isMemory.afterRead

theorem apply {a : BusAct} (h : bus.Stacks sp bytes)
    (ha : ∀ slot, a.Spares bus (stackAddress slot)) : (a.apply bus).Stacks sp bytes where
  isRam slot := (h.isRam slot).after [a]
  peek hb := ((h.isRam _).peek_apply (ha _)).trans (h.peek hb)

end Stacks

/-- No RAM has changed outside page one. -/
def SameOutsideStack (bus bus' : Bus) : Prop :=
  ∀ i m, bus.device? i = some (.ram m) → ∃ m', bus'.device? i = some (.ram m') ∧
    m'.range = m.range ∧ ∀ offset, (∀ slot, bus.owner? (stackAddress slot) = some i →
      (m.range.offset (stackAddress slot)).toNat ≠ offset) → m'.cell offset = m.cell offset

end Bus

/-! ### Handlers -/

/-- The processor with the bus on which it works. -/
structure Core where
  registers : Registers
  bus : Bus

/-- An instruction is performed on the operand at a location; the program counter is already behind
it. -/
def Core.perform (s : Core) (i : Instruction) (l : Location) : Core :=
  let ran := (s.registers.perform i.effect l).run s.bus
  ⟨ran.value.1, ran.bus⟩

theorem Core.leadsTo_perform (s : Core) (i : Instruction) (l : Location) :
    s.bus.LeadsTo (s.perform i l).bus :=
  ⟨_, Activity.run_bus _ s.bus⟩

/-- An instruction that writes onto the stack alone leaves all other RAM as it is. -/
theorem Core.sameOutsideStack_perform {s : Core} {i : Instruction} {l : Location}
    (hcall : i.effect = .call → l.address? ≠ none)
    (h : ∀ address value, .write address value ∈
      i.effect.traffic s.registers l.address? (s.registers.valueAt s.bus l.place) →
        ∃ slot, address = stackAddress slot) :
    s.bus.SameOutsideStack (s.perform i l).bus := by
  intro j m hm
  have hbus : (s.perform i l).bus = s.bus.after _ := Activity.run_bus _ s.bus
  obtain ⟨m', hm', hrange, hcell⟩ := Bus.cell_after_of_not_written hm
    ((s.registers.perform i.effect l).run s.bus).journal
  refine ⟨m', hbus ▸ hm', hrange, fun offset hoffset => hcell offset ?_⟩
  intro address value hmem howner
  have hact : BusAct.write address value ∈
      Entry.acts ((s.registers.perform i.effect l).run s.bus).journal :=
    List.mem_filterMap.mpr ⟨_, hmem, rfl⟩
  rw [s.registers.acts_perform i.effect s.bus hcall] at hact
  obtain ⟨slot, rfl⟩ := h address value hact
  exact hoffset slot howner

/-! ### Levels -/

/-- A level of the stack. -/
inductive StackLevel
  /-- The accumulator is put by. -/
  | accumulator
  /-- The flags are put by. -/
  | flags
  /-- A routine is called. -/
  | call (target : UInt16)

namespace StackLevel

/-- The instruction that opens a level. -/
def opener : StackLevel → Instruction
  | accumulator => .pha
  | flags => .php
  | call _ => .jsr

/-- The instruction that closes a level. -/
def closer : StackLevel → Instruction
  | accumulator => .pla
  | flags => .plp
  | call _ => .rts

/-- The operand of the instruction that opens a level. -/
def location : StackLevel → Location
  | call target => .direct target
  | accumulator | flags => ⟨.nowhere, false⟩

/-- How many bytes a level has. -/
def size : StackLevel → Nat
  | accumulator | flags => 1
  | call _ => 2

/-- The bytes that a level puts onto the stack, the one on top first. -/
def saved (r : Registers) : StackLevel → List UInt8
  | accumulator => [r.a]
  | flags => [r.flags.toByte ||| Flags.breakBit]
  | call _ => [lowByte (r.pc - 1), highByte (r.pc - 1)]

/-- The registers have what was put by: the accumulator, all flags, or the address behind the call. -/
def Restored (before after : Registers) : StackLevel → Prop
  | accumulator => after.a = before.a
  | flags => after.flags = before.flags
  | call _ => after.pc = before.pc

theorem length_saved (level : StackLevel) (r : Registers) : (level.saved r).length = level.size := by
  cases level <;> rfl

end StackLevel

namespace Core

/-- A level has been opened. -/
def opened (s : Core) (level : StackLevel) : Core :=
  s.perform level.opener level.location

/-- A level has been closed. -/
def closed (s : Core) (level : StackLevel) : Core :=
  s.perform level.closer ⟨.nowhere, false⟩

theorem sp_opened (s : Core) (level : StackLevel) :
    (s.opened level).registers.sp = s.registers.sp - UInt8.ofNat level.size := by
  cases level with
  | call target =>
    change s.registers.sp - 1 - 1 = s.registers.sp - 2
    grind
  | _ => rfl

theorem sp_closed (s : Core) (level : StackLevel) :
    (s.closed level).registers.sp = s.registers.sp + UInt8.ofNat level.size := by
  cases level with
  | call target => exact UInt8.add_assoc s.registers.sp 1 1
  | _ => rfl

/-- To open a level writes onto the stack alone, -/
theorem sameOutsideStack_opened (s : Core) (level : StackLevel) :
    s.bus.SameOutsideStack (s.opened level).bus := by
  refine sameOutsideStack_perform ?_ fun address value hmem => ?_
  · cases level with
    | call target => exact fun _ => Option.some_ne_none target
    | _ => exact nofun
  · cases level with
    | call target =>
      rcases List.mem_cons.mp hmem with he | hmem
      · exact ⟨_, (BusAct.write.inj he).1⟩
      · exact ⟨_, (BusAct.write.inj (List.mem_singleton.mp hmem)).1⟩
    | _ => exact ⟨_, (BusAct.write.inj (List.mem_singleton.mp hmem)).1⟩

/-- and to close it does not write at all. -/
theorem sameOutsideStack_closed (s : Core) (level : StackLevel) :
    s.bus.SameOutsideStack (s.closed level).bus := by
  refine sameOutsideStack_perform ?_ fun address value hmem => ?_
  · cases level <;> exact nofun
  · cases level with
    | call target =>
      rcases List.mem_cons.mp hmem with he | hmem
      · cases he
      · cases List.mem_singleton.mp hmem
    | _ => cases List.mem_singleton.mp hmem

end Core

namespace Bus.Stacks

variable {s : Core} {bytes : List UInt8}

/-- **To open a level** puts its bytes onto the stack. -/
theorem opened {level : StackLevel} (h : s.bus.Stacks s.registers.sp bytes)
    (hroom : level.size + bytes.length ≤ 256) :
    (s.opened level).bus.Stacks (s.opened level).registers.sp
      (level.saved s.registers ++ bytes) := by
  cases level with
  | accumulator => exact h.push (by change 1 + _ ≤ 256 at hroom; omega) s.registers.a
  | flags => exact h.push (by change 1 + _ ≤ 256 at hroom; omega) _
  | call target =>
    change 2 + bytes.length ≤ 256 at hroom
    have hhigh := h.push (by omega) (highByte (s.registers.pc - 1))
    exact hhigh.push (by rw [List.length_cons]; omega) (lowByte (s.registers.pc - 1))

/-- **To close a level** takes its bytes off the stack, and what was put by is there again. -/
theorem closed {level : StackLevel} {r : Registers}
    (h : s.bus.Stacks s.registers.sp (level.saved r ++ bytes)) :
    level.Restored r (s.closed level).registers ∧
      (s.closed level).bus.Stacks (s.closed level).registers.sp bytes := by
  cases level with
  | accumulator =>
    refine ⟨h.peek_top, ?_⟩
    change (s.bus.afterRead _).Stacks (s.registers.sp + 1) bytes
    rw [h.afterRead]
    exact h.pull
  | flags =>
    refine ⟨?_, ?_⟩
    · exact (congrArg Flags.ofByte h.peek_top).trans r.flags.ofByte_toByte_or_breakBit
    · change (s.bus.afterRead _).Stacks (s.registers.sp + 1) bytes
      rw [h.afterRead]
      exact h.pull
  | call target =>
    refine ⟨?_, ?_⟩
    · change word (s.bus.peek (stackAddress (s.registers.sp + 1)))
        ((s.bus.afterRead (stackAddress (s.registers.sp + 1))).peek
          (stackAddress (s.registers.sp + 1 + 1))) + 1 = r.pc
      rw [h.afterRead, h.peek_top, h.pull.peek_top, word_lowByte_highByte, UInt16.sub_add_cancel]
    · change ((s.bus.afterRead _).afterRead _).Stacks (s.registers.sp + 1 + 1) bytes
      rw [h.afterRead, h.afterRead]
      exact h.pull.pull

end Bus.Stacks

/-! ### Nestings -/

/-- What happens between the instructions that use the stack. -/
inductive Between
  /-- The registers are changed, but for the stack pointer. -/
  | registers (r : Registers)
  /-- Something happens on the bus. -/
  | bus (a : BusAct)

/-- What has happened in between. -/
def Core.between (s : Core) : Between → Core
  | .registers r => { s with registers := { r with sp := s.registers.sp } }
  | .bus a => { s with bus := a.apply s.bus }

/-- Levels that are well nested, and what happens between them. -/
inductive Nesting
  | done
  | between (b : Between) (rest : Nesting)
  /-- A level is opened, and after what lies inside it is closed. -/
  | level (level : StackLevel) (inside rest : Nesting)

namespace Nesting

/-- The processor and the bus at the end. -/
def run : Nesting → Core → Core
  | done, s => s
  | between b rest, s => rest.run (s.between b)
  | level l inside rest, s => rest.run ((inside.run (s.opened l)).closed l)

/-- How many bytes are held on the stack at once. -/
def held : Nesting → Nat
  | done => 0
  | between _ rest => rest.held
  | level l inside rest => max (l.size + inside.held) rest.held

/-- What happens on the bus between the levels. -/
def acts : Nesting → List BusAct
  | done => []
  | between (.registers _) rest => rest.acts
  | between (.bus a) rest => a :: rest.acts
  | level _ inside rest => inside.acts ++ rest.acts

/-- At every level what was put by is restored, and the two instructions of the level change no RAM
outside page one. -/
def Disciplined : Nesting → Core → Prop
  | done, _ => True
  | between b rest, s => rest.Disciplined (s.between b)
  | level l inside rest, s =>
    let full := inside.run (s.opened l)
    l.Restored s.registers (full.closed l).registers ∧
      s.bus.SameOutsideStack (s.opened l).bus ∧ full.bus.SameOutsideStack (full.closed l).bus ∧
      inside.Disciplined (s.opened l) ∧ rest.Disciplined (full.closed l)

theorem leadsTo_run (n : Nesting) (s : Core) : s.bus.LeadsTo (n.run s).bus := by
  induction n generalizing s with
  | done => exact .refl s.bus
  | between b rest ih =>
    cases b with
    | registers r => exact ih (s.between (.registers r))
    | bus a => exact .trans ⟨[a], rfl⟩ (ih (s.between (.bus a)))
  | level l inside rest ih ih' =>
    exact (s.leadsTo_perform _ _).trans ((ih _).trans ((Core.leadsTo_perform _ _ _).trans (ih' _)))

end Nesting

/-- **The bytes on the stack stay** while levels are opened and closed above them, if there is room. -/
theorem Bus.Stacks.run {n : Nesting} {s : Core} {bytes : List UInt8}
    (h : s.bus.Stacks s.registers.sp bytes) (hheld : n.held + bytes.length ≤ 256)
    (hspares : ∀ a ∈ n.acts, ∀ slot, a.Spares s.bus (stackAddress slot)) :
    n.Disciplined s ∧ (n.run s).registers.sp = s.registers.sp ∧
      (n.run s).bus.Stacks s.registers.sp bytes := by
  induction n generalizing s bytes with
  | done => exact ⟨trivial, rfl, h⟩
  | between b rest ih =>
    cases b with
    | registers r => exact ih (s := s.between (.registers r)) h hheld hspares
    | bus a =>
      obtain ⟨ha, hrest⟩ := List.forall_mem_cons.mp hspares
      exact ih (s := s.between (.bus a)) (h.apply ha) hheld fun a' ha' slot =>
        (h.isRam slot).spares_of_leadsTo (hrest a' ha' slot) ⟨[a], rfl⟩
  | level l inside rest ih ih' =>
    obtain ⟨hinside, hrest⟩ := List.forall_mem_append.mp hspares
    change max (l.size + inside.held) rest.held + bytes.length ≤ 256 at hheld
    have hroom : inside.held + (l.saved s.registers ++ bytes).length ≤ 256 := by
      rw [List.length_append, l.length_saved]
      omega
    have hopened : (s.opened l).bus.Stacks (s.opened l).registers.sp (l.saved s.registers ++ bytes) :=
      h.opened (by omega)
    obtain ⟨hdisciplined, hsp, hstacks⟩ := ih hopened hroom
      fun a ha slot => (h.isRam slot).spares_of_leadsTo (hinside a ha slot) (s.leadsTo_perform _ _)
    rw [← hsp] at hstacks
    obtain ⟨hrestored, hclosed⟩ := hstacks.closed
    have hback : ((inside.run (s.opened l)).closed l).registers.sp = s.registers.sp := by
      rw [Core.sp_closed, hsp, Core.sp_opened, UInt8.sub_add_cancel]
    have hleads : s.bus.LeadsTo ((inside.run (s.opened l)).closed l).bus :=
      (s.leadsTo_perform _ _).trans ((inside.leadsTo_run _).trans (Core.leadsTo_perform _ _ _))
    obtain ⟨hdisciplined', hsp', hstacks'⟩ := ih' hclosed (by omega)
      fun a ha slot => (h.isRam slot).spares_of_leadsTo (hrest a ha slot) hleads
    rw [hback] at hsp' hstacks'
    exact ⟨⟨hrestored, s.sameOutsideStack_opened l, Core.sameOutsideStack_closed _ l, hdisciplined,
      hdisciplined'⟩, hsp', hstacks'⟩

/-- **The discipline of the stack.** However levels are nested and whatever else happens in between,
each pull obtains what its push has stored, up to a whole page of bytes and from any stack pointer. -/
theorem Nesting.stack_discipline (n : Nesting) (s : Core)
    (hram : ∀ slot, s.bus.IsRam (stackAddress slot)) (hheld : n.held ≤ 256)
    (hspares : ∀ a ∈ n.acts, ∀ slot, a.Spares s.bus (stackAddress slot)) :
    n.Disciplined s ∧ (n.run s).registers.sp = s.registers.sp := by
  have hstacks : s.bus.Stacks s.registers.sp [] := ⟨hram, nofun⟩
  obtain ⟨hdisciplined, hsp, -⟩ := hstacks.run hheld hspares
  exact ⟨hdisciplined, hsp⟩

/-- A routine is called where the stack goes around the page, and saves the accumulator. -/
theorem Nesting.stack_discipline_around_the_page :
    let range : AddressRange := ⟨0x0000, 0x02FF, by decide⟩
    let bus : Bus := ⟨#[.ram (Ram.new range)], .new⟩
    let s : Core := ⟨{ Registers.reset 0x8003 with a := 0x11, sp := 0x00 }, bus⟩
    let routine : Nesting := .level .accumulator
      (.between (.bus (.write 0x0200 0x22)) (.between (.registers (.reset 0x9005)) .done)) .done
    let n : Nesting := .level (.call 0x9000) routine .done
    (s.opened (.call 0x9000)).bus.peek 0x0100 = 0x80 ∧
      (s.opened (.call 0x9000)).bus.peek 0x01FF = 0x02 ∧
      (routine.run (s.opened (.call 0x9000))).registers.a = 0x11 ∧
      (n.run s).registers.pc = 0x8003 ∧ (n.run s).registers.sp = 0x00 := by
  intro range bus s routine n
  have hram : ∀ slot, bus.IsRam (stackAddress slot) := by
    have hcontains : ∀ slot, range.contains (stackAddress slot) = true :=
      forall_byte (by decide +kernel)
    exact fun slot => ⟨0, Ram.new range, rfl, hcontains slot, nofun⟩
  have hother : ∀ slot, 0x0200 ≠ stackAddress slot :=
    forall_byte (P := fun slot => 0x0200 ≠ stackAddress slot) (by decide +kernel)
  have hspares : ∀ a ∈ n.acts, ∀ slot, a.Spares bus (stackAddress slot) := by
    intro a ha slot
    obtain rfl : a = .write 0x0200 0x22 := List.mem_singleton.mp ha
    exact (BusAct.spares_write_iff (hram slot)).mpr (hother slot)
  obtain ⟨hdisciplined, hsp⟩ := n.stack_discipline s hram (by decide) hspares
  obtain ⟨hback, -, -, ⟨haccumulator, -⟩, -⟩ := hdisciplined
  exact ⟨by decide +kernel, by decide +kernel, haccumulator, hback, hsp⟩

end Nmos6502
