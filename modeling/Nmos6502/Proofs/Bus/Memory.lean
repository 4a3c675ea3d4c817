import Nmos6502.Proofs.Bus.Interfaces
import Nmos6502.Proofs.Bus.ShadowedMemory

/-!
# Memory

What an activity does to the bus can be read off its journal (`Activity.run_bus`). An address is
memory if it goes to RAM or ROM (`Bus.IsMemory`). To read memory changes nothing, and bytes in memory
stay there until something else is written over them in RAM (`Bus.Holds.after`). An activity that
reads bytes in memory finds them (`Bus.Holds.run_readBytes`).

The cells of a RAM that no write reaches stay as they are, shadowed ones among them
(`Bus.cell_after_of_not_written`).
-/

namespace Nmos6502

/-! ### Bytes and their addresses -/

/-- Some bytes stand from an address on, and each of them has a property together with its address. -/
def Placed (P : UInt16 → UInt8 → Prop) (address : UInt16) (bytes : List UInt8) : Prop :=
  ∀ k b, bytes[k]? = some b → P (address + UInt16.ofNat k) b

namespace Placed

variable {P : UInt16 → UInt8 → Prop} {address : UInt16} {bytes : List UInt8}

theorem of_append {others : List UInt8} (h : Placed P address (bytes ++ others)) :
    Placed P address bytes ∧ Placed P (address + UInt16.ofNat bytes.length) others := by
  refine ⟨fun k b hb => h k b ?_, fun k b hb => ?_⟩
  · obtain ⟨hlt, -⟩ := List.getElem?_eq_some_iff.mp hb
    rw [List.getElem?_append_left hlt, hb]
  · have hk := h (bytes.length + k) b
    rw [List.getElem?_append_right (Nat.le_add_right _ _), Nat.add_sub_cancel_left,
      UInt16.ofNat_add, ← UInt16.add_assoc] at hk
    exact hk hb

theorem of_cons {b : UInt8} {others : List UInt8} (h : Placed P address (b :: others)) :
    P address b ∧ Placed P (address + 1) others := by
  rw [← List.singleton_append] at h
  obtain ⟨hfirst, hrest⟩ := of_append h
  have hzero : address + UInt16.ofNat 0 = address := UInt16.add_zero address
  have hb := hfirst 0 b rfl
  rw [hzero] at hb
  exact ⟨hb, hrest⟩

theorem nil (P : UInt16 → UInt8 → Prop) (address : UInt16) : Placed P address [] := by
  intro k b hb
  cases hb

theorem cons {b : UInt8} {others : List UInt8} (hb : P address b)
    (h : Placed P (address + 1) others) : Placed P address (b :: others) := by
  intro k b' hk
  cases k with
  | zero =>
    have hzero : address + UInt16.ofNat 0 = address := UInt16.add_zero address
    cases hk
    rw [hzero]
    exact hb
  | succ k =>
    have hsucc : address + UInt16.ofNat (k + 1) = address + 1 + UInt16.ofNat k := by
      rw [Nat.add_comm, UInt16.ofNat_add, ← UInt16.add_assoc]
      rfl
    rw [hsucc]
    exact h k b' hk

theorem imp {Q : UInt16 → UInt8 → Prop} (h : Placed P address bytes)
    (hpq : ∀ a b, P a b → Q a b) : Placed Q address bytes :=
  fun k b hb => hpq _ b (h k b hb)

end Placed

/-! ### Journals -/

namespace Entry

/-- The accesses of a journal as acts on the bus. -/
def acts (journal : List Entry) : List BusAct :=
  journal.filterMap fun
    | read address _ => some (.read address)
    | write address value => some (.write address value)
    | event _ => none

theorem acts_append (s t : List Entry) : acts (s ++ t) = acts s ++ acts t :=
  List.filterMap_append ..

theorem acts_events (events : List Event) : acts (events.map .event) = [] := by
  induction events with
  | nil => rfl
  | cons event rest ih => exact ih

theorem acts_accesses (journal : List Entry) : acts (accesses journal) = acts journal := by
  induction journal with
  | nil => rfl
  | cons entry rest ih =>
    cases entry with
    | read address value => exact congrArg (List.cons _) ih
    | write address value => exact congrArg (List.cons _) ih
    | event e => exact ih

/-- The acts of a journal only read and write. -/
theorem mem_acts {journal : List Entry} {a : BusAct} (h : a ∈ acts journal) :
    (∃ address, a = .read address) ∨
      ∃ address value, a = .write address value ∧ .write address value ∈ journal := by
  obtain ⟨entry, hentry, ha⟩ := List.mem_filterMap.mp h
  cases entry with
  | read address value => exact Or.inl ⟨address, (Option.some.inj ha).symm⟩
  | write address value => exact Or.inr ⟨address, value, (Option.some.inj ha).symm, hentry⟩
  | event e => cases ha

end Entry

/-- **The journal of an activity** tells what it does to the bus. -/
theorem Activity.run_bus {α : Type} (activity : Activity α) (bus : Bus) :
    (activity.run bus).bus = bus.after (Entry.acts (activity.run bus).journal) := by
  induction activity generalizing bus with
  | done value => rfl
  | read address next ih => exact ih (bus.read address).1 (bus.read address).2
  | write address value next ih =>
    have hjournal : Entry.acts ((write address value next).run bus).journal =
        .write address value :: Entry.acts (next.run (bus.write address value)).journal := by
      change BusAct.write address value :: Entry.acts (_ ++ _) = _
      rw [Entry.acts_append, Entry.acts_events]
      rfl
    rw [hjournal]
    exact ih (bus.write address value)
  | note event next ih => exact ih bus

/-- What is reported in between does not matter. -/
theorem Activity.run_bus_accesses {α : Type} (activity : Activity α) (bus : Bus) :
    (activity.run bus).bus =
      bus.after (Entry.acts (Entry.accesses (activity.run bus).journal)) := by
  rw [Entry.acts_accesses]
  exact activity.run_bus bus

/-! ### RAM and ROM -/

/-- A RAM whose cells are those of another is that RAM. -/
theorem Ram.eq_of_cell {m m' : Ram} (hr : m'.range = m.range) (h : ∀ k, m'.cell k = m.cell k) :
    m' = m := by
  rcases m with ⟨range, cells, hsize⟩
  rcases m' with ⟨range', cells', hsize'⟩
  obtain rfl : range' = range := hr
  obtain rfl : cells' = cells := by
    refine Array.ext (hsize'.trans hsize.symm) fun k hk hk' => ?_
    have hcell : (cells'[k]?).getD 0 = (cells[k]?).getD 0 := h k
    rwa [Array.getElem?_eq_getElem hk, Array.getElem?_eq_getElem hk'] at hcell
  rfl

namespace Bus

/-- An address goes to RAM or ROM. -/
def IsMemory (bus : Bus) (address : UInt16) : Prop :=
  ∃ i d, bus.IsFirst address i d ∧ d.contents? ≠ none

/-- An address goes to RAM. -/
def IsRam (bus : Bus) (address : UInt16) : Prop :=
  ∃ i m, bus.IsFirst address i (.ram m)

theorem IsRam.isMemory {bus : Bus} {address : UInt16} (h : bus.IsRam address) :
    bus.IsMemory address := by
  obtain ⟨i, m, hfirst⟩ := h
  exact ⟨i, .ram m, hfirst, Option.some_ne_none _⟩

theorem exists_ram_of_evolve {bus : Bus} {i : Nat} {acts : List BusAct} {d : Device} {m : Ram}
    (h : bus.evolve i acts d = .ram m) : ∃ m', d = .ram m' := by
  induction acts using List.reverseRecOn generalizing m with
  | nil => exact ⟨m, h⟩
  | append_singleton acts a ih =>
    rw [evolve_append_singleton] at h
    cases he : bus.evolve i acts d with
    | ram m' => exact ih he
    | _ =>
      rw [he] at h
      unfold BusAct.onDevice at h
      split at h
      · cases a <;> cases h
      · cases h

theorem IsRam.after {bus : Bus} {address : UInt16} (h : bus.IsRam address) (acts : List BusAct) :
    (bus.after acts).IsRam address := by
  obtain ⟨i, m, hfirst⟩ := h
  obtain ⟨m', he, -⟩ := evolve_ram hfirst.owner? hfirst.2.1 acts
  have hafter := hfirst.after acts
  rw [he] at hafter
  exact ⟨i, m', hafter⟩

theorem IsMemory.after {bus : Bus} {address : UInt16} (h : bus.IsMemory address)
    (acts : List BusAct) : (bus.after acts).IsMemory address := by
  obtain ⟨i, d, hfirst, hd⟩ := h
  cases d with
  | ram m => exact (IsRam.after ⟨i, m, hfirst⟩ acts).isMemory
  | rom m =>
    have hafter := hfirst.after acts
    rw [evolve_rom] at hafter
    exact ⟨i, .rom m, hafter, hd⟩
  | pia p => exact absurd rfl hd
  | screen s => exact absurd rfl hd

/-- **To read memory** changes nothing. -/
theorem IsMemory.afterRead {bus : Bus} {address : UInt16} (h : bus.IsMemory address) :
    bus.afterRead address = bus := by
  obtain ⟨i, d, hfirst, hd⟩ := h
  have hsame : bus.replace i d = bus := replace_self hfirst.1
  unfold Bus.afterRead
  rw [hfirst.owner?]
  dsimp only
  rw [update_eq hfirst.1]
  cases d with
  | ram m => exact hsame
  | rom m => exact hsame
  | pia p => exact absurd rfl hd
  | screen s => exact absurd rfl hd

/-- No device becomes RAM. -/
theorem IsRam.of_after {bus : Bus} {address : UInt16} {acts : List BusAct}
    (h : (bus.after acts).IsRam address) : bus.IsRam address := by
  obtain ⟨i, m, hfirst⟩ := h
  obtain ⟨howner, hd⟩ := isFirst_iff.mp hfirst
  rw [owner?_after] at howner
  rw [device?_after] at hd
  obtain ⟨d, hbefore, hevolve⟩ := Option.map_eq_some_iff.mp hd
  obtain ⟨m', rfl⟩ := exists_ram_of_evolve hevolve
  exact ⟨i, m', isFirst_iff.mpr ⟨howner, hbefore⟩⟩

/-- What an activity does not overwrite with another byte in RAM stays in memory. -/
theorem IsMemory.peek_after {bus : Bus} {address : UInt16} {journal : List Entry}
    (h : bus.IsMemory address)
    (hw : bus.IsRam address → ∀ value, .write address value ∈ journal → value = bus.peek address) :
    (bus.after (Entry.acts journal)).peek address = bus.peek address := by
  obtain ⟨i, d, hfirst, hd⟩ := h
  have hafter := (hfirst.after (Entry.acts journal)).read
  have hbefore := hfirst.read
  change (bus.after _).peek address = _ at hafter
  change bus.peek address = _ at hbefore
  cases d with
  | ram m =>
    obtain ⟨m', he, hr, hcell⟩ := evolve_ram hfirst.owner? hfirst.2.1 (Entry.acts journal)
    rw [he] at hafter
    change _ = m'.cell (m'.range.offset address).toNat at hafter
    rw [hafter, hr, hcell]
    cases hf : (Entry.acts journal).reverse.findSome?
        (BusAct.stored? address i (m.range.offset address).toNat) with
    | none => exact hbefore.symm
    | some value =>
      obtain ⟨a, ha, hstored⟩ := List.exists_of_findSome?_eq_some hf
      rcases Entry.mem_acts (List.mem_reverse.mp ha) with ⟨other, rfl⟩ | ⟨other, v, rfl, hmem⟩
      · cases hstored
      · obtain ⟨rfl, hv⟩ := Option.ite_none_right_eq_some.mp hstored
        cases hv
        exact hw ⟨i, m, hfirst⟩ value hmem
  | rom m =>
    rw [evolve_rom] at hafter
    exact hafter.trans hbefore.symm
  | pia p => exact absurd rfl hd
  | screen s => exact absurd rfl hd

theorem IsRam.peek_write {bus : Bus} {address : UInt16} (h : bus.IsRam address) (value : UInt8) :
    (bus.write address value).peek address = value := by
  obtain ⟨i, m, hfirst⟩ := h
  have hlt : (m.range.offset address).toNat < m.range.size := hfirst.offset_lt
  have hafter : (bus.write address value).IsFirst address i
      (.ram (m.write (m.range.offset address) value)) := by
    refine isFirst_iff.mpr ⟨?_, hfirst.write value⟩
    exact (bus.owner?_after [.write address value] address).trans hfirst.owner?
  refine hafter.read.trans ?_
  change (m.store (m.range.offset address).toNat value).cell (m.range.offset address).toNat = value
  rw [Ram.cell_store, if_pos ⟨rfl, hlt⟩]

/-- **RAM holds what an activity wrote last.** -/
theorem IsRam.peek_after_write {bus : Bus} {address : UInt16} {value : UInt8}
    (h : bus.IsRam address) (earlier : List Entry) {later : List Entry}
    (hlast : ∀ other, .write address other ∈ later → other = value) :
    (bus.after (Entry.acts (earlier ++ .write address value :: later))).peek address = value := by
  have hsplit : bus.after (Entry.acts (earlier ++ .write address value :: later)) =
      ((bus.after (Entry.acts earlier)).write address value).after (Entry.acts later) := by
    rw [Entry.acts_append]
    exact List.foldl_append
  have hram : ((bus.after (Entry.acts earlier)).write address value).IsRam address :=
    (h.after (Entry.acts earlier)).after [.write address value]
  have hpeek := (h.after (Entry.acts earlier)).peek_write value
  rw [hsplit, hram.isMemory.peek_after fun _ other hmem => (hlast other hmem).trans hpeek.symm]
  exact hpeek

/-- The cells of a RAM that no write of an activity reaches stay as they are. -/
theorem cell_after_of_not_written {bus : Bus} {i : Nat} {m : Ram} (hm : bus.device? i = some (.ram m))
    (journal : List Entry) : ∃ m', (bus.after (Entry.acts journal)).device? i = some (.ram m') ∧
      m'.range = m.range ∧ ∀ offset, (∀ address value, .write address value ∈ journal →
        bus.owner? address = some i → (m.range.offset address).toNat ≠ offset) →
          m'.cell offset = m.cell offset := by
  rw [device?_after, hm]
  induction journal using List.reverseRecOn with
  | nil => exact ⟨m, rfl, rfl, fun _ _ => rfl⟩
  | append_singleton journal entry ih =>
    obtain ⟨m₁, he, hr, hcell⟩ := ih
    rw [Option.map_some, Option.some.injEq] at he
    have hkeep : ∀ offset, (∀ address value, .write address value ∈ journal ++ [entry] →
        bus.owner? address = some i → (m.range.offset address).toNat ≠ offset) →
          m₁.cell offset = m.cell offset := fun offset h =>
      hcell offset fun address value hmem => h address value (List.mem_append_left _ hmem)
    rw [Entry.acts_append]
    cases entry with
    | read address value =>
      refine ⟨m₁, ?_, hr, hkeep⟩
      change some (bus.evolve i (_ ++ [BusAct.read address]) _) = _
      rw [evolve_append_singleton, he]
      unfold BusAct.onDevice
      split <;> rfl
    | write address value =>
      change ∃ m', some (bus.evolve i (_ ++ [BusAct.write address value]) _) = _ ∧ _
      rw [evolve_append_singleton, he]
      unfold BusAct.onDevice
      split
      · next howner =>
        refine ⟨m₁.write (m₁.range.offset address) value, rfl, hr, fun offset h => ?_⟩
        have hne := h address value (List.mem_append_right _ (List.mem_singleton_self _))
          (beq_iff_eq.mp howner)
        unfold Ram.write
        rw [Ram.cell_store, hr, if_neg fun hc => hne hc.1.symm]
        exact hkeep offset h
      · exact ⟨m₁, rfl, hr, hkeep⟩
    | event e =>
      refine ⟨m₁, ?_, hr, hkeep⟩
      change some (bus.evolve i (_ ++ []) _) = _
      rw [List.append_nil, he]

/-- An activity that does not write leaves all RAM as it is. -/
theorem ram_after_of_no_write {bus : Bus} {i : Nat} {m : Ram} {journal : List Entry}
    (hm : bus.device? i = some (.ram m)) (hw : ∀ address value, .write address value ∉ journal) :
    (bus.after (Entry.acts journal)).device? i = some (.ram m) := by
  obtain ⟨m', hm', hr, hcell⟩ := cell_after_of_not_written hm journal
  rw [hm', Ram.eq_of_cell hr fun k => hcell k fun address value hmem => absurd hmem (hw address value)]

/-! ### Bytes in memory -/

/-- Some bytes stand in memory, from an address on. -/
def Holds (bus : Bus) : UInt16 → List UInt8 → Prop :=
  Placed fun address b => bus.IsMemory address ∧ bus.peek address = b

/-- An activity writes no other byte in RAM where some bytes stand. -/
def Spares (bus : Bus) (journal : List Entry) : UInt16 → List UInt8 → Prop :=
  Placed fun address b =>
    bus.IsRam address → ∀ value, .write address value ∈ journal → value = b

/-- **Bytes stay in memory** if they are spared. -/
theorem Holds.after {bus : Bus} {address : UInt16} {bytes : List UInt8} {journal : List Entry}
    (h : bus.Holds address bytes) (hs : bus.Spares journal address bytes) :
    (bus.after (Entry.acts journal)).Holds address bytes := by
  intro k b hb
  obtain ⟨hmemory, hpeek⟩ := h k b hb
  refine ⟨hmemory.after _, ?_⟩
  rw [hmemory.peek_after fun hram value hmem => (hs k b hb hram value hmem).trans hpeek.symm]
  exact hpeek

namespace Spares

variable {bus : Bus} {address : UInt16} {bytes : List UInt8} {journal journal' : List Entry}

theorem of_subset (h : bus.Spares journal address bytes) (hj : journal' ⊆ journal) :
    bus.Spares journal' address bytes :=
  Placed.imp h fun _ _ hp hram value hmem => hp hram value (hj hmem)

theorem after (h : bus.Spares journal address bytes) (acts : List BusAct) :
    (bus.after acts).Spares journal address bytes :=
  Placed.imp h fun _ _ hp hram => hp (IsRam.of_after hram)

end Spares

end Bus

/-! ### Reading bytes -/

namespace Activity

/-- The activity that reads some bytes, one after the other. -/
def readBytes (address : UInt16) : Nat → Activity (List UInt8)
  | 0 => return []
  | n + 1 => do
    let b ← readByte address
    let rest ← readBytes (address + 1) n
    return b :: rest

end Activity

/-- The journal of reading some bytes, one after the other. -/
def Entry.reads (address : UInt16) : List UInt8 → List Entry
  | [] => []
  | b :: rest => .read address b :: reads (address + 1) rest

/-- Bytes in memory are found, and stay. -/
theorem Bus.Holds.run_readBytes {bus : Bus} {address : UInt16} {bytes : List UInt8}
    (h : bus.Holds address bytes) : (Activity.readBytes address bytes.length).run bus =
      ⟨bytes, bus, Entry.reads address bytes⟩ := by
  induction bytes generalizing address with
  | nil => rfl
  | cons b rest ih =>
    obtain ⟨⟨hmemory, hpeek⟩, hrest⟩ := Placed.of_cons h
    rw [List.length_cons]
    unfold Activity.readBytes
    simp only [Activity.run_bind, Activity.run_readByte, Activity.run_pure, hmemory.afterRead, hpeek,
      ih hrest, List.append_nil]
    rfl

end Nmos6502
