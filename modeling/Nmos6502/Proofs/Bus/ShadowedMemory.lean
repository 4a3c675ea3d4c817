import Nmos6502.Proofs.Bus.History

/-!
# The bus as a shadowed memory

After any history of a bus, RAM holds at each of its offsets the byte that was last stored there by a
write to that address or by a load (`Bus.evolve_ram`), and ROM holds its image. An access goes to
the first device whose range holds the address, which shadows the devices behind it.
`Bus.isShadowedMemory` says what reads and writes of an address do.
-/

namespace Nmos6502

/-! ### Bytes loaded into RAM -/

namespace Ram

theorem getElem?_load (m : Ram) (offset : Nat) (bytes : List UInt8) (k : Nat) :
    (m.load offset bytes).cells[k]? =
      if offset ≤ k ∧ k < m.range.size then bytes[k - offset]?.or m.cells[k]? else m.cells[k]? := by
  induction bytes generalizing m offset with
  | nil =>
    unfold load
    split <;> rfl
  | cons value rest ih =>
    unfold load
    rw [ih, range_store]
    have hstore : (m.store offset value).cells[k]? =
        if offset = k then if offset < m.cells.size then some value else none else m.cells[k]? :=
      Array.getElem?_setIfInBounds
    rw [hstore]
    rcases Nat.lt_trichotomy offset k with hlt | rfl | hgt
    · have hsub : k - offset = k - (offset + 1) + 1 := by omega
      rw [if_neg (Nat.ne_of_lt hlt), hsub, List.getElem?_cons_succ]
      simp only [Nat.succ_le_of_lt hlt, Nat.le_of_lt hlt, true_and]
    · have hnot : ¬ (offset + 1 ≤ offset ∧ offset < m.range.size) := by omega
      rw [if_neg hnot, if_pos rfl, Nat.sub_self, List.getElem?_cons_zero, m.size_cells]
      simp only [Nat.le_refl, true_and]
      split
      · rfl
      · next hge => rw [Array.getElem?_eq_none (by rw [m.size_cells]; omega)]
    · rw [if_neg (by omega), if_neg (by omega), if_neg (by omega)]

/-- A loaded byte is found at its offset, if there is a cell; all other cells stay. -/
theorem cell_load (m : Ram) (offset : Nat) (bytes : List UInt8) {k : Nat} (h : k < m.range.size) :
    (m.load offset bytes).cell k =
      (if offset ≤ k then bytes[k - offset]? else none).getD (m.cell k) := by
  unfold cell
  rw [getElem?_load]
  by_cases hle : offset ≤ k
  · rw [if_pos ⟨hle, h⟩, if_pos hle]
    cases bytes[k - offset]? <;> rfl
  · rw [if_neg fun hc => hle hc.1, if_neg hle]
    rfl

/-- **Loading bytes** replaces the cells from the offset on by as many bytes as there is room for. -/
theorem toList_load (m : Ram) (offset : Nat) (bytes : List UInt8) {start stop : Nat}
    (hstart : start = min offset m.range.size)
    (hstop : stop = min (start + bytes.length) m.range.size) :
    (m.load offset bytes).toList =
      m.toList.take start ++ bytes.take (stop - start) ++ m.toList.drop stop := by
  have hlen : m.toList.length = m.range.size := m.size_cells
  have hget : ∀ (m : Ram) k, m.toList[k]? = m.cells[k]? := fun _ _ => Array.getElem?_toList
  have hfirst : (m.toList.take start).length = start := by
    rw [List.length_take, hlen]
    omega
  have hmiddle : (m.toList.take start ++ bytes.take (stop - start)).length = stop := by
    rw [List.length_append, hfirst, List.length_take]
    omega
  refine List.ext_getElem? fun k => ?_
  rw [hget, getElem?_load]
  rcases Nat.lt_or_ge k start with hbefore | hafter
  · rw [if_neg (by omega), List.append_assoc, List.getElem?_append_left (by omega),
      List.getElem?_take, if_pos hbefore, hget]
  · rcases Nat.lt_or_ge k stop with hin | hpast
    · have hsub : k - start = k - offset := by omega
      rw [List.getElem?_append_left (by omega), List.getElem?_append_right (by omega), hfirst,
        List.getElem?_take, if_pos (by omega), if_pos (by omega), hsub,
        List.getElem?_eq_getElem (by omega)]
      rfl
    · have hsub : stop + (k - stop) = k := by omega
      rw [List.getElem?_append_right (by omega), hmiddle, List.getElem?_drop, hsub, hget]
      split
      · rw [List.getElem?_eq_none (by omega)]
        rfl
      · rfl

end Ram

/-! ### What is stored -/

namespace BusAct

/-- The byte that an act stores for an address, at an offset of the device at a place. -/
def stored? (address : UInt16) (place offset : Nat) : BusAct → Option UInt8
  | write a value => if a = address then some value else none
  | load i first bytes => if i = place ∧ first ≤ offset then bytes[offset - first]? else none
  | read _ | clock | drive .. | take .. => none

theorem stored?_write (address : UInt16) (place offset : Nat) (a : UInt16) (value : UInt8) :
    (write a value).stored? address place offset = if a = address then some value else none := rfl

theorem stored?_load (address : UInt16) (place offset i first : Nat) (bytes : List UInt8) :
    (load i first bytes).stored? address place offset =
      if i = place ∧ first ≤ offset then bytes[offset - first]? else none := rfl

end BusAct

/-- The byte that was last stored for an address, at an offset of the device at a place; zero if there
was none. -/
def lastStored (address : UInt16) (place offset : Nat) (acts : List BusAct) : UInt8 :=
  (acts.reverse.findSome? (BusAct.stored? address place offset)).getD 0

namespace Bus

/-! ### Memory -/

theorem evolve_rom (bus : Bus) (place : Nat) (acts : List BusAct) (m : Rom) :
    bus.evolve place acts (.rom m) = .rom m := by
  induction acts using List.reverseRecOn with
  | nil => rfl
  | append_singleton acts a ih =>
    rw [evolve_append_singleton, ih]
    unfold BusAct.onDevice
    split
    · cases a <;> rfl
    · rfl

/-- The offsets of two addresses in a range differ if the addresses do. -/
theorem offset_inj {r : AddressRange} {a b : UInt16} : r.offset a = r.offset b ↔ a = b :=
  UInt16.sub_left_inj _

theorem cell_onDevice {bus : Bus} {place : Nat} {m : Ram} {address : UInt16}
    (h : bus.owner? address = some place) (hin : m.range.contains address = true) (a : BusAct) :
    ∃ m', a.onDevice bus place (.ram m) = .ram m' ∧ m'.range = m.range ∧
      m'.cell (m.range.offset address).toNat =
        (a.stored? address place (m.range.offset address).toNat).getD
          (m.cell (m.range.offset address).toNat) := by
  have hlt := AddressRange.toNat_offset_lt_size hin
  unfold BusAct.onDevice
  cases a with
  | read a =>
    refine ⟨m, ?_, rfl, rfl⟩
    split <;> rfl
  | write a value =>
    by_cases ha : bus.owner? a = some place
    · refine ⟨m.write (m.range.offset a) value, if_pos (beq_iff_eq.mpr ha), rfl, ?_⟩
      unfold Ram.write
      rw [Ram.cell_store, BusAct.stored?_write]
      simp only [UInt16.toNat_inj, offset_inj]
      by_cases he : a = address
      · subst he
        rw [if_pos ⟨rfl, hlt⟩, if_pos rfl]
        rfl
      · rw [if_neg fun hc => he hc.1.symm, if_neg he]
        rfl
    · refine ⟨m, if_neg fun hc => ha (beq_iff_eq.mp hc), rfl, ?_⟩
      have he : a ≠ address := by
        rintro rfl
        exact ha h
      rw [BusAct.stored?_write, if_neg he]
      rfl
  | clock => exact ⟨m, rfl, rfl, rfl⟩
  | load i offset bytes =>
    by_cases hi : i = place
    · refine ⟨m.load offset bytes, if_pos (beq_iff_eq.mpr hi), m.range_load offset bytes, ?_⟩
      rw [BusAct.stored?_load]
      simp only [hi, true_and]
      exact m.cell_load offset bytes hlt
    · refine ⟨m, if_neg fun hc => hi (beq_iff_eq.mp hc), rfl, ?_⟩
      rw [BusAct.stored?_load, if_neg fun hc => hi hc.1]
      rfl
  | drive i side value =>
    refine ⟨m, ?_, rfl, rfl⟩
    split <;> rfl
  | take i side =>
    refine ⟨m, ?_, rfl, rfl⟩
    split <;> rfl

/-- **RAM holds what was last stored** for an address that goes to it. -/
theorem evolve_ram {bus : Bus} {place : Nat} {m : Ram} {address : UInt16}
    (h : bus.owner? address = some place) (hin : m.range.contains address = true)
    (acts : List BusAct) :
    ∃ m', bus.evolve place acts (.ram m) = .ram m' ∧ m'.range = m.range ∧
      m'.cell (m.range.offset address).toNat =
        (acts.reverse.findSome?
          (BusAct.stored? address place (m.range.offset address).toNat)).getD
            (m.cell (m.range.offset address).toNat) := by
  induction acts using List.reverseRecOn with
  | nil => exact ⟨m, rfl, rfl, rfl⟩
  | append_singleton acts a ih =>
    obtain ⟨m₁, he, hr, hcell⟩ := ih
    rw [← hr] at hin
    obtain ⟨m₂, he', hr', hcell'⟩ := cell_onDevice h hin a
    rw [hr] at hr' hcell'
    refine ⟨m₂, ?_, hr', ?_⟩
    · rw [evolve_append_singleton, he, he']
    · rw [hcell', hcell, List.reverse_append, List.reverse_singleton, List.singleton_append,
        List.findSome?_cons]
      cases a.stored? address place (m.range.offset address).toNat <;> rfl

/-! ### Reads and writes -/

/-- The device at a place is the first one whose range holds an address. -/
def IsFirst (bus : Bus) (address : UInt16) (place : Nat) (d : Device) : Prop :=
  bus.device? place = some d ∧ d.range.contains address = true ∧
    ∀ j < place, ∀ d', bus.device? j = some d' → d'.range.contains address = false

theorem isFirst_iff {bus : Bus} {address : UInt16} {place : Nat} {d : Device} :
    bus.IsFirst address place d ↔ bus.owner? address = some place ∧ bus.device? place = some d := by
  rw [owner?_eq_some_iff]
  constructor
  · rintro ⟨hd, hin, hbefore⟩
    exact ⟨⟨⟨d, hd, hin⟩, hbefore⟩, hd⟩
  · rintro ⟨⟨⟨d', hd', hin⟩, hbefore⟩, hd⟩
    obtain rfl : d' = d := Option.some.inj (hd'.symm.trans hd)
    exact ⟨hd, hin, hbefore⟩

theorem IsFirst.after {bus : Bus} {address : UInt16} {place : Nat} {d : Device}
    (h : bus.IsFirst address place d) (acts : List BusAct) :
    (bus.after acts).IsFirst address place (bus.evolve place acts d) := by
  obtain ⟨howner, hd⟩ := isFirst_iff.mp h
  refine isFirst_iff.mpr ⟨(bus.owner?_after acts address).trans howner, ?_⟩
  rw [device?_after, hd]
  rfl

theorem IsFirst.read {bus : Bus} {address : UInt16} {place : Nat} {d : Device}
    (h : bus.IsFirst address place d) :
    (bus.read address).1 = (d.read (d.range.offset address)).1 := by
  obtain ⟨howner, hd⟩ := isFirst_iff.mp h
  unfold Bus.read peek
  rw [howner, Option.bind_some, hd]

theorem IsFirst.write {bus : Bus} {address : UInt16} {place : Nat} {d : Device}
    (h : bus.IsFirst address place d) (value : UInt8) :
    (bus.write address value).device? place = some (d.write (d.range.offset address) value) := by
  obtain ⟨howner, hd⟩ := isFirst_iff.mp h
  have happly := bus.device?_apply (.write address value) place
  rw [hd] at happly
  exact happly.trans (congrArg some (if_pos (beq_iff_eq.mpr howner)))

theorem IsFirst.offset_lt {bus : Bus} {address : UInt16} {place : Nat} {d : Device}
    (h : bus.IsFirst address place d) : (d.range.offset address).toNat < d.range.size :=
  AddressRange.toNat_offset_lt_size h.2.1

theorem read_of_owner?_eq_none {bus : Bus} {address : UInt16} (h : bus.owner? address = none) :
    (bus.read address).1 = 0 := by
  unfold read peek
  rw [h]
  rfl

theorem IsFirst.owner? {bus : Bus} {address : UInt16} {place : Nat} {d : Device}
    (h : bus.IsFirst address place d) : bus.owner? address = some place :=
  (isFirst_iff.mp h).1

theorem device?_write_of_ne {bus : Bus} {address : UInt16} {place : Nat}
    (h : ∀ d, ¬ bus.IsFirst address place d) (value : UInt8) :
    (bus.write address value).device? place = bus.device? place := by
  refine (bus.device?_apply (.write address value) place).trans ?_
  cases hd : bus.device? place with
  | none => rfl
  | some d =>
    have hne : bus.owner? address ≠ some place := fun howner =>
      h d (isFirst_iff.mpr ⟨howner, hd⟩)
    refine congrArg some ?_
    unfold BusAct.onDevice
    exact if_neg fun hc => hne (beq_iff_eq.mp hc)

theorem request?_write_of_ne {bus : Bus} {address : UInt16} {source : SourceId}
    (h : ∀ i p, bus.IsFirst address i (.pia p) → p.source ≠ source) (value : UInt8) :
    (bus.write address value).irq.request? source = bus.irq.request? source := by
  refine request?_apply (a := .write address value) fun hc => ?_
  obtain ⟨i, howner, hi⟩ := Option.bind_eq_some_iff.mp hc
  obtain ⟨d, hd, hs⟩ := Option.bind_eq_some_iff.mp hi
  cases d with
  | pia p => exact h i p (isFirst_iff.mpr ⟨howner, hd⟩) (Option.some.inj hs)
  | _ => cases hs

/-- After a history, an address reads and writes as in a memory in which earlier devices shadow later
ones. -/
structure IsShadowedMemory (bus : Bus) (acts : List BusAct) (address : UInt16) : Prop where
  read_open : (∀ i d, bus.device? i = some d → d.range.contains address = false) →
    ((bus.after acts).read address).1 = 0
  read_ram {i : Nat} {range : AddressRange} : bus.IsFirst address i (.ram (.new range)) →
    ((bus.after acts).read address).1 = lastStored address i (range.offset address).toNat acts
  read_rom {i : Nat} {range : AddressRange} {image : List UInt8} {m : Rom} :
    Rom.ofImage range image = .ok m → bus.IsFirst address i (.rom m) →
      ((bus.after acts).read address).1 = image.getD (range.offset address).toNat 0
  /-- A write changes the first device that holds the address and no other, -/
  write_others {j : Nat} (value : UInt8) : (∀ d, ¬ (bus.after acts).IsFirst address j d) →
    ((bus.after acts).write address value).device? j = (bus.after acts).device? j
  /-- nor what any other holds of the interrupt line. -/
  write_requests {source : SourceId} (value : UInt8) :
    (∀ i p, (bus.after acts).IsFirst address i (.pia p) → p.source ≠ source) →
      ((bus.after acts).write address value).irq.request? source =
        (bus.after acts).irq.request? source
  /-- A device is only given offsets that its range has, -/
  offset_lt {i : Nat} {d : Device} : (bus.after acts).IsFirst address i d →
    (d.range.offset address).toNat < d.range.size
  /-- so that RAM and ROM find a cell for each of them. -/
  ram_cell {i : Nat} {m : Ram} : (bus.after acts).IsFirst address i (.ram m) →
    ∃ h : (m.range.offset address).toNat < m.cells.size,
      ((bus.after acts).read address).1 = m.cells[(m.range.offset address).toNat] ∧
      ∀ value, ∃ m', ((bus.after acts).write address value).device? i = some (.ram m') ∧
        m'.range = m.range ∧ m'.cells = m.cells.set (m.range.offset address).toNat value h
  rom_cell {i : Nat} {m : Rom} : (bus.after acts).IsFirst address i (.rom m) →
    ∃ h : (m.range.offset address).toNat < m.cells.size,
      ((bus.after acts).read address).1 = m.cells[(m.range.offset address).toNat] ∧
      ∀ value, ((bus.after acts).write address value).device? i = some (.rom m)
  /-- Bytes are loaded between two offsets within the RAM, and as many as lie between these. -/
  load (m : Ram) (offset : Nat) (bytes : List UInt8) : ∃ start stop,
    start = min offset m.range.size ∧ stop = min (start + bytes.length) m.range.size ∧
      (m.load offset bytes).range = m.range ∧
      (m.load offset bytes).toList =
        m.toList.take start ++ bytes.take (stop - start) ++ m.toList.drop stop

/-- **The bus is a shadowed memory**, whatever has happened on it. -/
theorem isShadowedMemory (bus : Bus) (acts : List BusAct) (address : UInt16) :
    bus.IsShadowedMemory acts address where
  read_open h := by
    refine read_of_owner?_eq_none ?_
    rw [owner?_after]
    exact owner?_eq_none_iff.mpr h
  read_ram {i range} h := by
    obtain ⟨m, he, hr, hcell⟩ := evolve_ram h.owner? h.2.1 acts
    have hfirst := h.after acts
    rw [he] at hfirst
    have hread : ((bus.after acts).read address).1 = m.cell (m.range.offset address).toNat :=
      hfirst.read
    rw [hread, hr]
    refine hcell.trans ?_
    rw [Ram.cell_new]
    rfl
  read_rom {i range image m} hm h := by
    have hfirst := h.after acts
    rw [evolve_rom] at hfirst
    have hrange : m.range = range := by
      unfold Rom.ofImage at hm
      split at hm
      · cases hm
        rfl
      · cases hm
    refine hfirst.read.trans ?_
    rw [← hrange]
    exact Rom.cell_of_ofImage hm _
  write_others value h := device?_write_of_ne h value
  write_requests value h := request?_write_of_ne h value
  offset_lt h := h.offset_lt
  ram_cell {i m} h := by
    have hlt : (m.range.offset address).toNat < m.cells.size :=
      Nat.lt_of_lt_of_eq h.offset_lt m.size_cells.symm
    refine ⟨hlt, h.read.trans ?_, fun value => ⟨_, h.write value, rfl, ?_⟩⟩
    · change (m.cells[(m.range.offset address).toNat]?).getD 0 = _
      rw [Array.getElem?_eq_getElem hlt]
      rfl
    · exact dif_pos hlt
  rom_cell {i m} h := by
    have hlt : (m.range.offset address).toNat < m.cells.size :=
      Nat.lt_of_lt_of_eq h.offset_lt m.size_cells.symm
    refine ⟨hlt, h.read.trans ?_, fun value => h.write value⟩
    change (m.cells[(m.range.offset address).toNat]?).getD 0 = _
    rw [Array.getElem?_eq_getElem hlt]
    rfl
  load m offset bytes :=
    ⟨_, _, rfl, rfl, m.range_load offset bytes, m.toList_load offset bytes rfl rfl⟩

/-- Two RAMs at `0000` and `0080` overlap: an address that both hold goes to the first one, whatever is
loaded into the second. -/
theorem isShadowedMemory_of_overlap :
    let low : AddressRange := ⟨0x0000, 0x00FF, by decide⟩
    let high : AddressRange := ⟨0x0080, 0x017F, by decide⟩
    let bus : Bus := ⟨#[.ram (.new low), .ram (.new high)], .new⟩
    let acts : List BusAct := [.load 1 0x10 [1, 2], .write 0x0091 0xAB, .write 0x0150 0xCD]
    ((bus.after acts).read 0x0090).1 = 0 ∧ ((bus.after acts).read 0x0091).1 = 0xAB ∧
      ((bus.after acts).read 0x0150).1 = 0xCD := by
  intro low high bus acts
  have hlow : ∀ address, bus.owner? address = some 0 →
      bus.IsFirst address 0 (.ram (.new low)) := fun address h => isFirst_iff.mpr ⟨h, rfl⟩
  have hhigh : bus.IsFirst 0x0150 1 (.ram (.new high)) := isFirst_iff.mpr ⟨by decide +kernel, rfl⟩
  refine ⟨?_, ?_, ?_⟩
  · rw [(bus.isShadowedMemory acts 0x0090).read_ram (hlow _ (by decide +kernel))]
    decide
  · rw [(bus.isShadowedMemory acts 0x0091).read_ram (hlow _ (by decide +kernel))]
    decide
  · rw [(bus.isShadowedMemory acts 0x0150).read_ram hhigh]
    decide

end Bus

end Nmos6502
