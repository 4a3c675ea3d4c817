import Nmos6502.Configuration
import Nmos6502.Proofs.Bus.Interfaces

/-!
# Building a configuration

A described device is made if its addresses and its image fit (`Description.Fits`), and is as fresh as
its description says (`Description.Describes`); otherwise there is one reason to refuse it
(`Description.Faulty`). A configuration is attached device by device (`Configuration.Attaches`), so that
either all of its devices are on the bus in their order or the first one that does not fit is refused.

Every interface takes a released source of the interrupt request line, which neither raises nor lowers
it (`Bus.Extends`), and gives it back if the bus cannot be finished
(`Bus.Extends.request?_released`).
-/

namespace Nmos6502

/-- All registers of a new interface are clear. -/
theorem Pia.read_new (range : AddressRange) (source : SourceId) (offset : UInt16) :
    ((new range source).read offset).1 = 0 := by
  have hcontrol : flag false outA ||| flag false outB ||| flag false irqA ||| flag false irqB = 0 := by
    decide
  have hstatus : flag false readyA ||| flag false readyB = 0 := by decide
  unfold read
  split
  · next register _ =>
    cases register with
    | portA | portB => rfl
    | control => exact hcontrol
    | status => exact hstatus
  · rfl

namespace Description

/-! ### What fits -/

/-- The addresses are in order and in memory, and an image is no longer than there are addresses. -/
def Fits : Description → Prop
  | ram first last => first ≤ last
  | rom first last image => first ≤ last ∧ image.length ≤ last.toNat - first.toNat + 1
  | pia first | screen first => first ≤ 0xFFFC

/-- What is wrong with a description. The addresses are looked at before the image is. -/
inductive Faulty : Description → DeviceError → Prop
  | ram {first last : UInt16} : last < first → Faulty (.ram first last) (.range (.reversed first last))
  | rom {first last : UInt16} {image : List UInt8} : last < first →
    Faulty (.rom first last image) (.range (.reversed first last))
  | image {first last : UInt16} {image : List UInt8} : first ≤ last →
    last.toNat - first.toNat + 1 < image.length → Faulty (.rom first last image)
      (.imageTooLarge image.length (last.toNat - first.toNat + 1))
  | pia {first : UInt16} : 0xFFFC < first → Faulty (.pia first) (.range (.misfit first 4))
  | screen {first : UInt16} : 0xFFFC < first → Faulty (.screen first) (.range (.misfit first 4))

/-- A device is the one that is described, as it is before anything has happened to it. -/
inductive Describes : Description → Device → Prop
  | ram {range : AddressRange} : Describes (.ram range.first range.last) (.ram (.new range))
  | rom {m : Rom} {image : List UInt8} : (∀ k, m.cell k = image.getD k 0) →
    Describes (.rom m.range.first m.range.last image) (.rom m)
  | pia {range : AddressRange} {source : SourceId} : range.last.toNat = range.first.toNat + 3 →
    Describes (.pia range.first) (.pia (.new range source))
  | screen {range : AddressRange} : range.last.toNat = range.first.toNat + 3 →
    Describes (.screen range.first) (.screen (.new range))

/-- The interrupt request line once a device is made: an interface has one source of it more. -/
inductive Wires (line : InterruptLine) : Device → InterruptLine → Prop
  | free {d : Device} : d.pia? = none → Wires line d line
  | pia {p : Pia} : p.source = line.connect.1 → Wires line (.pia p) line.connect.2

theorem Faulty.not_fits {d : Description} {e : DeviceError} (h : d.Faulty e) : ¬ d.Fits := by
  cases h with
  | ram h => exact UInt16.not_le.mpr h
  | rom h => exact fun hfits => UInt16.not_le.mpr h hfits.1
  | image _ hlong => exact fun hfits => Nat.not_le.mpr hlong hfits.2
  | pia h => exact UInt16.not_le.mpr h
  | screen h => exact UInt16.not_le.mpr h

theorem fits_or_exists_faulty (d : Description) : d.Fits ∨ ∃ e, d.Faulty e := by
  cases d with
  | ram first last =>
    rcases UInt16.le_or_lt first last with h | h
    · exact Or.inl h
    · exact Or.inr ⟨_, .ram h⟩
  | rom first last image =>
    rcases UInt16.le_or_lt first last with h | h
    · rcases Nat.lt_or_ge (last.toNat - first.toNat + 1) image.length with hl | hl
      · exact Or.inr ⟨_, .image h hl⟩
      · exact Or.inl ⟨h, hl⟩
    · exact Or.inr ⟨_, .rom h⟩
  | pia first =>
    rcases UInt16.le_or_lt first 0xFFFC with h | h
    · exact Or.inl h
    · exact Or.inr ⟨_, .pia h⟩
  | screen first =>
    rcases UInt16.le_or_lt first 0xFFFC with h | h
    · exact Or.inl h
    · exact Or.inr ⟨_, .screen h⟩

/-! ### What is made -/

theorem four_fit_iff {first : UInt16} :
    (0 < 4 ∧ first.toNat + 4 ≤ 0x10000) ↔ first ≤ 0xFFFC := by
  rw [UInt16.le_iff_toNat_le]
  have hlast : (0xFFFC : UInt16).toNat = 0xFFFC := rfl
  omega

theorem exists_ofSize_four {first : UInt16} (h : first ≤ 0xFFFC) :
    ∃ range, AddressRange.ofSize first 4 = .ok range ∧ range.first = first ∧
      range.last.toNat = range.first.toNat + 3 := by
  have hfits := four_fit_iff.mpr h
  unfold AddressRange.ofSize
  rw [dif_pos hfits]
  exact ⟨_, rfl, rfl, AddressRange.toNat_last hfits⟩

theorem ofSize_four_of_lt {first : UInt16} (h : 0xFFFC < first) :
    AddressRange.ofSize first 4 = .error (.misfit first 4) :=
  dif_neg (mt four_fit_iff.mp (UInt16.not_le.mpr h))

theorem ofBounds_of_le {first last : UInt16} (h : first ≤ last) :
    AddressRange.ofBounds first last = .ok ⟨first, last, h⟩ :=
  dif_pos h

theorem ofBounds_of_lt {first last : UInt16} (h : last < first) :
    AddressRange.ofBounds first last = .error (.reversed first last) :=
  dif_neg (UInt16.not_le.mpr h)

theorem make_of_range_eq_error {d : Description} {e : RangeError} (h : d.range = .error e)
    (line : InterruptLine) : d.make line = .error (.range e) := by
  unfold make
  rw [h]

/-- **A description that is faulty** is refused for what is wrong with it. -/
theorem make_of_faulty {d : Description} {e : DeviceError} (h : d.Faulty e) (line : InterruptLine) :
    d.make line = .error e := by
  cases h with
  | ram h => exact make_of_range_eq_error (d := ram _ _) (ofBounds_of_lt h) line
  | rom h => exact make_of_range_eq_error (d := rom _ _ _) (ofBounds_of_lt h) line
  | pia h => exact make_of_range_eq_error (d := pia _) (ofSize_four_of_lt h) line
  | screen h => exact make_of_range_eq_error (d := screen _) (ofSize_four_of_lt h) line
  | @image first last image h hlong =>
    have hrange : (rom first last image).range = .ok ⟨first, last, h⟩ := ofBounds_of_le h
    have hsize : (AddressRange.mk first last h).size = last.toNat - first.toNat + 1 :=
      AddressRange.size_eq _
    rw [← hsize] at hlong ⊢
    have hrom : Rom.ofImage ⟨first, last, h⟩ image = .error (.imageTooLarge image.length _) :=
      if_neg (Nat.not_le.mpr hlong)
    unfold make
    simp only [hrange, hrom]
    rfl

/-- **A description that fits** makes the device that it describes. -/
theorem exists_make_of_fits {d : Description} (h : d.Fits) (line : InterruptLine) :
    ∃ device line', d.make line = .ok (device, line') ∧ d.Describes device ∧
      Wires line device line' := by
  cases d with
  | ram first last =>
    have hrange : (ram first last).range = .ok ⟨first, last, h⟩ := ofBounds_of_le h
    refine ⟨_, _, ?_, @Describes.ram ⟨first, last, h⟩, .free rfl⟩
    unfold make
    rw [hrange]
  | rom first last image =>
    obtain ⟨hle, hlength⟩ := h
    have hrange : (rom first last image).range = .ok ⟨first, last, hle⟩ := ofBounds_of_le hle
    rw [← AddressRange.size_eq ⟨first, last, hle⟩] at hlength
    have hrom : Rom.ofImage ⟨first, last, hle⟩ image = .ok ⟨⟨first, last, hle⟩, _, _⟩ :=
      if_pos hlength
    refine ⟨_, _, ?_, .rom (m := ⟨⟨first, last, hle⟩, _, _⟩) (Rom.cell_of_ofImage hrom), .free rfl⟩
    unfold make
    simp only [hrange, hrom]
    rfl
  | pia first =>
    obtain ⟨range, hrange, rfl, hlast⟩ := exists_ofSize_four h
    have hrange' : (pia range.first).range = .ok range := hrange
    refine ⟨_, _, ?_, .pia hlast, .pia rfl⟩
    unfold make
    rw [hrange']
    rfl
  | screen first =>
    obtain ⟨range, hrange, rfl, hlast⟩ := exists_ofSize_four h
    have hrange' : (screen range.first).range = .ok range := hrange
    refine ⟨_, _, ?_, .screen hlast, .free rfl⟩
    unfold make
    rw [hrange']

/-! ### What is read -/

/-- The first and the last address that a description names. -/
def bounds : Description → Nat × Nat
  | ram first last | rom first last _ => (first.toNat, last.toNat)
  | pia first | screen first => (first.toNat, first.toNat + 3)

/-- Whether a description names an address. -/
def covers (address : UInt16) (d : Description) : Bool :=
  d.bounds.1 ≤ address.toNat && address.toNat ≤ d.bounds.2

/-- The byte that is found at an address before anything has happened: that of the image, if there is one
and it is long enough. -/
def initialByte (address : UInt16) : Description → UInt8
  | rom first _ image => image.getD (address.toNat - first.toNat) 0
  | ram _ _ | pia _ | screen _ => 0

theorem Describes.answers {d : Description} {device : Device} (h : d.Describes device)
    (address : UInt16) : device.answers address = d.covers address := by
  have hcontains : ∀ (range : AddressRange) (last : Nat), range.last.toNat = last →
      range.contains address =
        (decide (range.first.toNat ≤ address.toNat) && decide (address.toNat ≤ last)) := by
    rintro range _ rfl
    rw [Bool.eq_iff_iff, AddressRange.contains_iff]
    simp
  cases h with
  | ram => exact hcontains _ _ rfl
  | rom => exact hcontains _ _ rfl
  | pia hlast => exact hcontains _ _ hlast
  | screen hlast => exact hcontains _ _ hlast

theorem Describes.read {d : Description} {device : Device} (h : d.Describes device)
    {address : UInt16} (ha : d.covers address = true) :
    (device.read (device.range.offset address)).1 = d.initialByte address := by
  have hanswers := (h.answers address).trans ha
  cases h with
  | ram => exact Ram.cell_new _ _
  | rom hcells =>
    refine (hcells _).trans ?_
    rw [AddressRange.toNat_offset hanswers]
    rfl
  | pia => exact Pia.read_new _ _ _
  | @screen range _ =>
    change (Screen.new range).read (range.offset address) = 0
    unfold Screen.read
    split_ifs <;> rfl

end Description

/-! ### The interrupt request line -/

namespace InterruptLine

theorem request?_of_size_le {line : InterruptLine} {source : SourceId}
    (h : line.requests.size ≤ source) : line.request? source = none := by
  unfold request?
  rw [Array.getElem?_eq_none h]
  rfl

/-- A source that does not assert the line leaves the number of those that do. -/
theorem count_disconnect {line : InterruptLine} {source : SourceId}
    (h : line.request? source ≠ some true) : (line.disconnect source).count = line.count := by
  change (line.set source false).count = line.count
  cases hr : line.request? source with
  | none => rw [set_of_request?_eq_none hr]
  | some before =>
    cases before with
    | true => exact absurd hr h
    | false => rw [set_of_request? hr, if_pos rfl]

theorem count_foldl_disconnect {line : InterruptLine} {ds : List Device}
    (h : ∀ p ∈ ds.filterMap Device.pia?, line.request? p.source ≠ some true) :
    (ds.foldl (fun line d => d.disconnect line) line).count = line.count := by
  induction ds generalizing line with
  | nil => rfl
  | cons d rest ih =>
    rw [Bus.filterMap_pia?_cons] at h
    rw [List.foldl_cons]
    cases hp : d.pia? with
    | none =>
      rw [hp] at h
      rw [Device.disconnect_of_pia?_eq_none hp]
      exact ih h
    | some p =>
      rw [hp] at h
      obtain ⟨hfirst, hrest⟩ := List.forall_mem_cons.mp h
      rw [Device.eq_pia_of_pia? hp]
      refine (ih fun q hq => ?_).trans (count_disconnect hfirst)
      rw [Device.disconnect, request?_disconnect]
      split
      · exact (Option.some_ne_none true).symm
      · exact hrest q hq

end InterruptLine

namespace Bus

/-- The line of a bus is a given line with a released source more for each of the interfaces on the
bus. -/
structure Extends (bus : Bus) (line : InterruptLine) : Prop where
  count_eq : bus.irq.count = line.count
  size_le : line.requests.size ≤ bus.irq.requests.size
  request?_eq (source : SourceId) : bus.irq.request? source =
    if source ∈ bus.interfaces.map Pia.source then some false else line.request? source
  /-- These sources are not among those of the line. -/
  le_source {p : Pia} : p ∈ bus.interfaces → line.requests.size ≤ p.source

namespace Extends

variable {bus : Bus} {line : InterruptLine}

theorem empty (line : InterruptLine) : (Bus.empty line).Extends line where
  count_eq := rfl
  size_le := Nat.le_refl _
  request?_eq _ := rfl
  le_source hp := by cases hp

/-- **One device more** on a line that is extended. -/
theorem attach {device : Device} {irq : InterruptLine} (h : bus.Extends line)
    (hw : Description.Wires bus.irq device irq) :
    ({ bus with irq := irq }.attach device).Extends line := by
  have hinterfaces : ({ bus with irq := irq }.attach device).interfaces =
      bus.interfaces ++ device.pia?.toList := interfaces_attach _ device
  cases hw with
  | free hnone =>
    rw [hnone, Option.toList_none, List.append_nil] at hinterfaces
    refine ⟨h.count_eq, h.size_le, fun source => ?_, fun hp => ?_⟩
    · rw [hinterfaces]
      exact h.request?_eq source
    · rw [hinterfaces] at hp
      exact h.le_source hp
  | @pia p hp =>
    change _ = bus.interfaces ++ [p] at hinterfaces
    change p.source = bus.irq.requests.size at hp
    refine ⟨h.count_eq, ?_, fun source => ?_, fun {q} hq => ?_⟩
    · exact Nat.le_trans h.size_le (by simp [Bus.attach, InterruptLine.connect])
    · refine (bus.irq.request?_connect source).trans ?_
      rw [hinterfaces, List.map_append, h.request?_eq, ← hp]
      by_cases hs : source = p.source <;> simp [hs]
    · rw [hinterfaces] at hq
      rcases List.mem_append.mp hq with hq | hq
      · exact h.le_source hq
      · rw [List.mem_singleton.mp hq, hp]
        exact h.size_le

/-- What is on the line already is not changed. -/
theorem request?_of_isConnected (h : bus.Extends line) {source : SourceId}
    (hc : line.isConnected source = true) : bus.irq.request? source = line.request? source := by
  rw [h.request?_eq, if_neg]
  intro hmem
  obtain ⟨p, hp, rfl⟩ := List.mem_map.mp hmem
  unfold InterruptLine.isConnected at hc
  rw [InterruptLine.request?_of_size_le (h.le_source hp)] at hc
  cases hc

/-- **To take all devices away** gives back all sources. -/
theorem request?_released (h : bus.Extends line) (source : SourceId) :
    bus.released.request? source = line.request? source := by
  refine (bus.request?_clear source).trans ?_
  by_cases hmem : source ∈ bus.interfaces.map Pia.source
  · rw [if_pos hmem]
    obtain ⟨p, hp, rfl⟩ := List.mem_map.mp hmem
    exact (InterruptLine.request?_of_size_le (h.le_source hp)).symm
  · rw [if_neg hmem, h.request?_eq, if_neg hmem]

theorem count_released (h : bus.Extends line) : bus.released.count = line.count := by
  have hline : bus.released =
      bus.devices.toList.foldl (fun line d => d.disconnect line) bus.irq :=
    (Array.foldl_toList _).symm
  rw [hline, InterruptLine.count_foldl_disconnect, h.count_eq]
  intro p hp
  have hmem : p.source ∈ bus.interfaces.map Pia.source := List.mem_map_of_mem hp
  rw [h.request?_eq, if_pos hmem]
  simp

end Extends

/-- A read goes to the first device that has the address. -/
theorem peek_eq_find? (bus : Bus) (address : UInt16) : bus.peek address =
    ((bus.devices.toList.find? fun d => d.answers address).map fun d =>
      (d.read (d.range.offset address)).1).getD openValue := by
  have hfind : (bus.owner? address).bind bus.device? =
      bus.devices.toList.find? fun d => d.answers address :=
    Array.find?_eq_bind_findIdx?_getElem?.symm.trans Array.find?_toList.symm
  unfold peek
  rw [hfind]
  cases bus.devices.toList.find? fun d => d.answers address <;> rfl

end Bus

/-! ### All devices -/

/-- A refusal names the first description that does not fit, its kind, and what is wrong with it. -/
def BuildError.Refuses (e : BuildError) (ds : List Description) : Prop :=
  ∃ d, ds[e.index]? = some d ∧ e.kind = d.kind ∧ d.Faulty e.error ∧ ∀ d' ∈ ds.take e.index, d'.Fits

theorem BuildError.Refuses.not_fits {e : BuildError} {ds : List Description} (h : e.Refuses ds) :
    ¬ ∀ d ∈ ds, d.Fits := by
  obtain ⟨d, hd, -, hfaulty, -⟩ := h
  exact fun hall => hfaulty.not_fits (hall d (List.mem_of_getElem? hd))

theorem BuildError.Refuses.index_le {e e' : BuildError} {ds : List Description} (h : e.Refuses ds)
    (h' : e'.Refuses ds) : e'.index ≤ e.index := by
  obtain ⟨d, hd, -, hfaulty, -⟩ := h
  obtain ⟨-, -, -, -, hbefore⟩ := h'
  by_contra hlt
  refine hfaulty.not_fits (hbefore d (List.mem_of_getElem? (i := e.index) ?_))
  rw [List.getElem?_take_of_lt (Nat.not_le.mp hlt), hd]

/-- There is one refusal only. -/
theorem BuildError.Refuses.unique {e e' : BuildError} {ds : List Description} (h : e.Refuses ds)
    (h' : e'.Refuses ds) : e = e' := by
  have hindex := Nat.le_antisymm (h'.index_le h) (h.index_le h')
  obtain ⟨d, hd, hkind, hfaulty, -⟩ := h
  obtain ⟨d', hd', hkind', hfaulty', -⟩ := h'
  rw [hindex, hd'] at hd
  obtain rfl := Option.some.inj hd
  have herror := (Description.make_of_faulty hfaulty .new).symm.trans
    (Description.make_of_faulty hfaulty' .new)
  obtain ⟨index, kind, error⟩ := e
  obtain ⟨index', kind', error'⟩ := e'
  cases hindex
  cases hkind.trans hkind'.symm
  cases herror
  rfl

namespace Configuration

/-- What attaching some descriptions comes to: they are attached as long as they fit. -/
inductive Attaches : Bus → Nat → List Description → Option BuildError → Bus → Prop
  | nil {bus : Bus} {index : Nat} : Attaches bus index [] none bus
  | refused {bus : Bus} {index : Nat} {d : Description} {rest : List Description} {e : DeviceError} :
    d.Faulty e → Attaches bus index (d :: rest) (some ⟨index, d.kind, e⟩) bus
  | attached {bus after : Bus} {index : Nat} {d : Description} {rest : List Description}
    {device : Device} {irq : InterruptLine} {refusal : Option BuildError} :
    d.Fits → d.Describes device → Description.Wires bus.irq device irq →
      Attaches ({ bus with irq := irq }.attach device) (index + 1) rest refusal after →
        Attaches bus index (d :: rest) refusal after

theorem attaches_attachAll (bus : Bus) (index : Nat) (ds : List Description) :
    Attaches bus index ds (attachAll bus index ds).1 (attachAll bus index ds).2.1 := by
  induction ds generalizing bus index with
  | nil => exact .nil
  | cons d rest ih =>
    unfold attachAll
    rcases d.fits_or_exists_faulty with hfits | ⟨e, hfaulty⟩
    · obtain ⟨device, irq, hmake, hdescribes, hwires⟩ := Description.exists_make_of_fits hfits bus.irq
      rw [hmake]
      exact .attached hfits hdescribes hwires (ih _ _)
    · rw [Description.make_of_faulty hfaulty]
      exact .refused hfaulty

namespace Attaches

variable {bus after : Bus} {index : Nat} {ds : List Description} {refusal : Option BuildError}

/-- All devices are attached, in their order, if nothing is refused. -/
theorem describes (h : Attaches bus index ds none after) : (∀ d ∈ ds, d.Fits) ∧
    ∃ devices, after.devices.toList = bus.devices.toList ++ devices ∧
      List.Forall₂ Description.Describes ds devices := by
  generalize hr : (none : Option BuildError) = refusal at h
  induction h with
  | nil => exact ⟨List.forall_mem_nil _, [], (List.append_nil _).symm, List.Forall₂.nil⟩
  | refused => cases hr
  | @attached bus after index d rest device irq _ hfits hdescribes _ _ ih =>
    obtain ⟨hrest, devices, hafter, hall⟩ := ih hr
    refine ⟨List.forall_mem_cons.mpr ⟨hfits, hrest⟩, device :: devices, ?_, .cons hdescribes hall⟩
    rw [hafter, Bus.attach, Array.toList_push, List.append_assoc]
    rfl

/-- The first description that does not fit is refused. -/
theorem refuses {e : BuildError} (h : Attaches bus index ds (some e) after) :
    ∃ k, e.index = index + k ∧ (BuildError.mk k e.kind e.error).Refuses ds := by
  generalize hr : some e = refusal at h
  induction h with
  | nil => cases hr
  | refused hfaulty =>
    cases hr
    exact ⟨0, rfl, _, rfl, rfl, hfaulty, List.forall_mem_nil _⟩
  | attached hfits _ _ _ ih =>
    obtain ⟨k, hk, d, hd, hkind, hfaulty, hbefore⟩ := ih hr
    refine ⟨k + 1, by omega, d, hd, hkind, hfaulty, ?_⟩
    exact List.forall_mem_cons.mpr ⟨hfits, hbefore⟩

theorem extended {line : InterruptLine} (h : Attaches bus index ds refusal after)
    (hline : bus.Extends line) : after.Extends line := by
  induction h with
  | nil => exact hline
  | refused => exact hline
  | attached _ _ hwires _ ih => exact ih (hline.attach hwires)

end Attaches

/-- The byte that is found at an address before anything has happened: that of the first device that has
the address, and zero where none has it. -/
def initialByte (c : Configuration) (address : UInt16) : UInt8 :=
  ((c.devices.find? (Description.covers address)).map (Description.initialByte address)).getD 0

theorem peek_of_describes {c : Configuration} {bus : Bus}
    (h : List.Forall₂ Description.Describes c.devices bus.devices.toList) (address : UInt16) :
    bus.peek address = c.initialByte address := by
  rw [Bus.peek_eq_find?]
  unfold initialByte
  generalize c.devices = ds, bus.devices.toList = devices at h
  induction h with
  | nil => rfl
  | @cons d device ds devices hfirst _ ih =>
    rw [List.find?_cons, List.find?_cons, hfirst.answers]
    cases ha : d.covers address with
    | true => exact hfirst.read ha
    | false => exact ih

/-! ### What building comes to -/

/-- Building a configuration on some interrupt lines comes to this. -/
structure Builds (c : Configuration) (lines : InterruptLines) (built : Built) : Prop where
  /-- A bus is built if all descriptions fit, -/
  ok_iff : (∃ bus, built.result = .ok bus) ↔ ∀ d ∈ c.devices, d.Fits
  /-- and otherwise the first one that does not is refused. -/
  error_iff {e : BuildError} : built.result = .error e ↔ e.Refuses c.devices
  /-- The bus has the described devices in their order, -/
  devices {bus : Bus} : built.result = .ok bus →
    List.Forall₂ Description.Describes c.devices bus.devices.toList
  /-- on which the bytes of the images are read, and zero elsewhere, -/
  read {bus : Bus} (address : UInt16) : built.result = .ok bus →
    (bus.read address).1 = c.initialByte address
  /-- and drives the interrupt request line. -/
  irq {bus : Bus} : built.result = .ok bus → bus.irq = built.lines.irq
  /-- In either case neither line is raised or lowered, and no source that was there loses its
  request. -/
  nmi_eq : built.lines.nmi = lines.nmi
  isRaised_eq : built.lines.irq.isRaised = lines.irq.isRaised
  request?_eq {source : SourceId} : lines.irq.isConnected source = true →
    built.lines.irq.request? source = lines.irq.request? source
  /-- A bus that cannot be finished leaves no source on the line. -/
  undone {e : BuildError} : built.result = .error e → ∀ source,
    built.lines.irq.request? source = lines.irq.request? source

/-- **What building comes to.** -/
theorem builds (c : Configuration) (lines : InterruptLines) : c.Builds lines (c.build lines) := by
  have hattaches := attaches_attachAll (.empty lines.irq) 0 c.devices
  have hextends := hattaches.extended (Bus.Extends.empty lines.irq)
  unfold build
  generalize attachAll (.empty lines.irq) 0 c.devices = attached at hattaches hextends
  obtain ⟨_ | e, bus, events⟩ := attached
  · obtain ⟨hfits, devices, hdevices, hdescribes⟩ := hattaches.describes
    obtain rfl : bus.devices.toList = devices := hdevices
    refine {
      ok_iff := ⟨fun _ => hfits, fun _ => ⟨bus, rfl⟩⟩
      error_iff := ⟨nofun, fun h => absurd hfits h.not_fits⟩
      devices := ?_
      read := ?_
      irq := ?_
      nmi_eq := rfl
      isRaised_eq := congrArg (· != 0) hextends.count_eq
      request?_eq := hextends.request?_of_isConnected
      undone := nofun }
    · rintro _ ⟨⟩
      exact hdescribes
    · rintro _ address ⟨⟩
      exact peek_of_describes hdescribes address
    · rintro _ ⟨⟩
      rfl
  · obtain ⟨k, hk, hrefuses⟩ := hattaches.refuses
    rw [← hk.trans (Nat.zero_add k)] at hrefuses
    refine {
      ok_iff := ⟨nofun, fun h => absurd h hrefuses.not_fits⟩
      error_iff := ⟨?_, fun h => congrArg Except.error (hrefuses.unique h)⟩
      devices := nofun
      read := nofun
      irq := nofun
      nmi_eq := rfl
      isRaised_eq := congrArg (· != 0) hextends.count_released
      request?_eq := fun _ => hextends.request?_released _
      undone := fun _ => hextends.request?_released }
    rintro ⟨⟩
    exact hrefuses

/-- Of two devices at one address the first one is found, and an interface that is followed by a
description that does not fit leaves the line as it was. -/
theorem builds_with_overlap :
    let c : Configuration := ⟨[.rom 0xFFF0 0xFFFF [0xEA, 0x4C], .ram 0xF000 0xFFFF, .pia 0xF000]⟩
    let c' : Configuration := ⟨[.pia 0xF000, .screen 0xFFFD, .ram 2 1]⟩
    let lines : InterruptLines := ⟨.new, InterruptLine.new.set 0 true⟩
    (∃ bus, (c.build lines).result = .ok bus ∧ (bus.read 0xFFF1).1 = 0x4C ∧
        (bus.read 0xFFF2).1 = 0 ∧ (bus.read 0xF002).1 = 0) ∧
      (c'.build lines).result = .error ⟨1, .screen, .range (.misfit 0xFFFD 4)⟩ ∧
      (c.build lines).lines.irq.isRaised = true ∧ (c'.build lines).lines.irq.isRaised = true ∧
      (c'.build lines).lines.irq.request? 1 = none := by
  intro c c' lines
  have hbuilds := builds c lines
  have hrefused := builds c' lines
  have hfits : ∀ d ∈ c.devices, d.Fits := by
    refine List.forall_mem_cons.mpr ⟨⟨by decide, by decide⟩, ?_⟩
    refine List.forall_mem_cons.mpr ⟨(by decide : (0xF000 : UInt16) ≤ 0xFFFF), ?_⟩
    refine List.forall_mem_cons.mpr ⟨(by decide : (0xF000 : UInt16) ≤ 0xFFFC), List.forall_mem_nil _⟩
  have herror : (c'.build lines).result = .error ⟨1, .screen, .range (.misfit 0xFFFD 4)⟩ := by
    refine hrefused.error_iff.mpr ⟨.screen 0xFFFD, rfl, rfl, .screen (by decide), ?_⟩
    exact List.forall_mem_cons.mpr ⟨(by decide : (0xF000 : UInt16) ≤ 0xFFFC), List.forall_mem_nil _⟩
  obtain ⟨bus, hbus⟩ := hbuilds.ok_iff.mpr hfits
  refine ⟨⟨bus, hbus, ?_, ?_, ?_⟩, herror, ?_, ?_, ?_⟩
  · exact (hbuilds.read 0xFFF1 hbus).trans (by decide +kernel)
  · exact (hbuilds.read 0xFFF2 hbus).trans (by decide +kernel)
  · exact (hbuilds.read 0xF002 hbus).trans (by decide +kernel)
  · exact hbuilds.isRaised_eq.trans (by decide +kernel)
  · exact hrefused.isRaised_eq.trans (by decide +kernel)
  · exact (hrefused.undone herror 1).trans (by decide +kernel)

end Configuration

end Nmos6502
