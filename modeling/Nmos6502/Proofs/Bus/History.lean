import Mathlib.Data.List.Induction
import Nmos6502.Bus

/-!
# Histories of a bus

Whatever happens on a bus (`BusAct`), the devices keep their ranges and their places, so an address
always goes to the same device, and every device goes its own way: what becomes of it depends only on
the acts that reach it (`Bus.device?_after`). An interface keeps the source by which it holds the
interrupt line, and an act changes no request but that of the interface on which it works
(`Bus.request?_apply`).
-/

namespace Nmos6502

/-! ### What happens to a bus -/

namespace Bus

/-- A place, if the device there is of a kind. -/
def placeOf? {κ : Type} (bus : Bus) (kind : Device → Option κ) (i : Nat) : Option Nat :=
  ((bus.device? i).bind kind).map fun _ => i

/-- The bus once something has happened to the device at a place, if there is one. -/
def updateAt (bus : Bus) (place? : Option Nat) (signals : Device → Bool) (f : Device → Device) :
    Bus :=
  match place? with
  | some i => bus.update i signals f
  | none => bus

theorem device?_updateAt (bus : Bus) (place? : Option Nat) (signals : Device → Bool)
    (f : Device → Device) (j : Nat) : (bus.updateAt place? signals f).device? j =
      (bus.device? j).map fun d => if place? = some j then f d else d := by
  cases place? with
  | none => exact Option.map_id'.symm
  | some i =>
    refine (bus.device?_update i j signals f).trans ?_
    by_cases h : i = j
    · simp only [h, if_true]
    · simp only [h, Option.some.injEq, if_false]
      exact Option.map_id'.symm

theorem placeOf?_eq_some_iff {κ : Type} {bus : Bus} {kind : Device → Option κ} {i j : Nat}
    {d : Device} (hd : bus.device? j = some d) :
    bus.placeOf? kind i = some j ↔ i = j ∧ kind d ≠ none := by
  unfold placeOf?
  rw [Option.map_eq_some_iff]
  constructor
  · rintro ⟨k, hk, rfl⟩
    rw [hd, Option.bind_some] at hk
    refine ⟨rfl, ?_⟩
    rw [hk]
    exact Option.some_ne_none k
  · rintro ⟨rfl, hk⟩
    obtain ⟨k, hk⟩ := Option.ne_none_iff_exists'.mp hk
    refine ⟨k, ?_, rfl⟩
    rw [hd, Option.bind_some, hk]

end Bus

/-- What may happen to a bus. -/
inductive BusAct
  | read (address : UInt16)
  | write (address : UInt16) (value : UInt8)
  | clock
  /-- Bytes are stored in the RAM at a place, from an offset on. -/
  | load (place offset : Nat) (bytes : List UInt8)
  /-- A peripheral drives a port of the interface at a place. -/
  | drive (place : Nat) (side : Pia.Side) (value : UInt8)
  /-- A peripheral collects from a port of the interface at a place. -/
  | take (place : Nat) (side : Pia.Side)

namespace BusAct

/-- The bus afterwards. Where there is no such device at the place, nothing happens. -/
def apply (bus : Bus) : BusAct → Bus
  | read address => (bus.read address).2
  | write address value => bus.write address value
  | clock => bus.clock
  | load place offset bytes => (bus.load? place offset bytes).getD bus
  | drive place side value => (bus.drive? place side value).getD bus
  | take place side => ((bus.take? place side).map Prod.snd).getD bus

/-- The place of the device on which an act works; a clock works on all of them. -/
def target? (bus : Bus) : BusAct → Option Nat
  | read address | write address _ => bus.owner? address
  | clock => none
  | load place _ _ => bus.placeOf? Device.ram? place
  | drive place _ _ | take place _ => bus.placeOf? Device.pia? place

/-- What an act does to a device on which it works. -/
def change (d : Device) : BusAct → Device
  | read address => (d.read (d.range.offset address)).2
  | write address value => d.write (d.range.offset address) value
  | clock => d.clock
  | load _ offset bytes => d.load offset bytes
  | drive _ side value => d.drive side value
  | take _ side => d.afterTake side

/-- Whether an act makes a device on which it works signal. -/
def signals (d : Device) : BusAct → Bool
  | read address => d.signalsRead (d.range.offset address)
  | write address _ => d.signalsWrite (d.range.offset address)
  | clock | load .. => false
  | drive _ side _ => d.signalsDrive side
  | take _ side => d.signalsTake side

/-- Whether an act reaches a place, where it has an effect if the device is of the right kind. -/
def reaches (bus : Bus) (place : Nat) : BusAct → Bool
  | read address | write address _ => bus.owner? address == some place
  | clock => true
  | load i _ _ | drive i _ _ | take i _ => i == place

/-- What becomes of the device at a place. -/
def onDevice (bus : Bus) (place : Nat) (d : Device) (a : BusAct) : Device :=
  if a.reaches bus place then a.change d else d

end BusAct

namespace Device

theorem load_of_ram?_eq_none {d : Device} (h : d.ram? = none) (offset : Nat) (bytes : List UInt8) :
    d.load offset bytes = d := by
  cases d with
  | ram m => cases h
  | _ => rfl

theorem drive_of_pia?_eq_none {d : Device} (h : d.pia? = none) (side : Pia.Side) (value : UInt8) :
    d.drive side value = d := by
  cases d with
  | pia p => cases h
  | _ => rfl

theorem afterTake_of_pia?_eq_none {d : Device} (h : d.pia? = none) (side : Pia.Side) :
    d.afterTake side = d := by
  cases d with
  | pia p => cases h
  | _ => rfl

end Device

namespace Bus

/-- The bus after a history. -/
def after (bus : Bus) (acts : List BusAct) : Bus :=
  acts.foldl BusAct.apply bus

theorem after_append_singleton (bus : Bus) (acts : List BusAct) (a : BusAct) :
    bus.after (acts ++ [a]) = a.apply (bus.after acts) := by
  unfold after
  rw [List.foldl_append, List.foldl_cons, List.foldl_nil]

/-- What becomes of the device at a place. -/
def evolve (bus : Bus) (place : Nat) (acts : List BusAct) (d : Device) : Device :=
  acts.foldl (BusAct.onDevice bus place) d

theorem evolve_append_singleton (bus : Bus) (place : Nat) (acts : List BusAct) (a : BusAct)
    (d : Device) :
    bus.evolve place (acts ++ [a]) d = a.onDevice bus place (bus.evolve place acts d) := by
  unfold evolve
  rw [List.foldl_append, List.foldl_cons, List.foldl_nil]

/-! ### Every device goes its own way -/

theorem apply_eq_updateAt (bus : Bus) {a : BusAct} (h : a ≠ .clock) :
    a.apply bus = bus.updateAt (a.target? bus) a.signals a.change := by
  cases a with
  | read address =>
    change bus.afterRead address = bus.updateAt (bus.owner? address) _ _
    unfold afterRead
    cases bus.owner? address <;> rfl
  | write address value =>
    change bus.write address value = bus.updateAt (bus.owner? address) _ _
    unfold write
    cases bus.owner? address <;> rfl
  | clock => exact absurd rfl h
  | load i offset bytes =>
    change (bus.load? i offset bytes).getD bus = bus.updateAt (bus.placeOf? Device.ram? i) _ _
    unfold load? placeOf?
    cases (bus.device? i).bind Device.ram? <;> rfl
  | drive i side value =>
    change (bus.drive? i side value).getD bus = bus.updateAt (bus.placeOf? Device.pia? i) _ _
    unfold drive? placeOf?
    cases (bus.device? i).bind Device.pia? <;> rfl
  | take i side =>
    change ((bus.take? i side).map Prod.snd).getD bus = bus.updateAt (bus.placeOf? Device.pia? i) _ _
    unfold take? placeOf?
    cases (bus.device? i).bind Device.pia? <;> rfl

/-- An act that does not change devices of other kinds need not look at the kind. -/
theorem ite_placeOf? {κ : Type} {bus : Bus} {kind : Device → Option κ} {i j : Nat} {d d' : Device}
    (hd : bus.device? j = some d) (h : kind d = none → d' = d) :
    (if bus.placeOf? kind i = some j then d' else d) = if i == j then d' else d := by
  simp only [placeOf?_eq_some_iff hd, beq_iff_eq]
  by_cases hk : kind d = none
  · rw [h hk, ite_self, ite_self]
  · simp only [hk, ne_eq, not_false_eq_true, and_true]

theorem device?_apply (bus : Bus) (a : BusAct) (j : Nat) :
    (a.apply bus).device? j = (bus.device? j).map fun d => a.onDevice bus j d := by
  by_cases hclock : a = .clock
  · subst hclock
    exact Array.getElem?_map
  · rw [apply_eq_updateAt bus hclock, device?_updateAt]
    refine Option.map_congr fun d hd => ?_
    unfold BusAct.onDevice
    cases a with
    | read address => exact if_congr beq_iff_eq.symm rfl rfl
    | write address value => exact if_congr beq_iff_eq.symm rfl rfl
    | clock => exact absurd rfl hclock
    | load i offset bytes =>
      exact ite_placeOf? hd fun hk => Device.load_of_ram?_eq_none hk offset bytes
    | drive i side value =>
      exact ite_placeOf? hd fun hk => Device.drive_of_pia?_eq_none hk side value
    | take i side =>
      exact ite_placeOf? hd fun hk => Device.afterTake_of_pia?_eq_none hk side

theorem range_change (d : Device) (a : BusAct) : (a.change d).range = d.range := by
  cases a with
  | read address => exact Device.range_read d _
  | write address value => exact Device.range_write d _ value
  | clock => exact Device.range_clock d
  | load i offset bytes => exact Device.range_load d offset bytes
  | drive i side value => exact Device.range_drive d side value
  | take i side => exact Device.range_afterTake d side

theorem range_onDevice (bus : Bus) (place : Nat) (d : Device) (a : BusAct) :
    (a.onDevice bus place d).range = d.range := by
  unfold BusAct.onDevice
  split
  · exact range_change d a
  · rfl

theorem owner?_after (bus : Bus) (acts : List BusAct) (address : UInt16) :
    (bus.after acts).owner? address = bus.owner? address := by
  induction acts using List.reverseRecOn with
  | nil => rfl
  | append_singleton acts a ih =>
    rw [after_append_singleton, ← ih]
    refine owner?_congr address fun i => ?_
    rw [device?_apply]
    cases (bus.after acts).device? i with
    | none => rfl
    | some d => exact congrArg some (range_onDevice _ i d a)

/-- **Every device goes its own way**: a history does to it what the acts that reach it do. -/
theorem device?_after (bus : Bus) (acts : List BusAct) (place : Nat) :
    (bus.after acts).device? place = (bus.device? place).map (bus.evolve place acts) := by
  induction acts using List.reverseRecOn with
  | nil => exact Option.map_id'.symm
  | append_singleton acts a ih =>
    have hreaches : a.reaches (bus.after acts) place = a.reaches bus place := by
      cases a <;> simp only [BusAct.reaches, owner?_after]
    rw [after_append_singleton, device?_apply, ih, Option.map_map]
    refine Option.map_congr fun d _ => ?_
    unfold BusAct.onDevice
    rw [evolve_append_singleton, Function.comp_apply, hreaches]
    rfl

/-- **A device with a history of its own.** If the acts on the bus that reach a device of some kind come
down to acts on what it holds, it goes through these acts. -/
theorem evolve_eq_foldl {κ α : Type} {wrap : κ → Device} {own? : BusAct → Option α}
    {apply : κ → α → κ} (Inv : κ → Prop) (hkeeps : ∀ k act, Inv k → Inv (apply k act))
    (hchange : ∀ k a, Inv k → a.change (wrap k) = wrap ((own? a).elim k (apply k)))
    (bus : Bus) (place : Nat) (acts : List BusAct) {k : κ} (hk : Inv k) :
    bus.evolve place acts (wrap k) =
      wrap (((acts.filter (BusAct.reaches bus place)).filterMap own?).foldl apply k) := by
  induction acts generalizing k with
  | nil => rfl
  | cons a rest ih =>
    change bus.evolve place rest (a.onDevice bus place (wrap k)) = _
    unfold BusAct.onDevice
    rw [List.filter_cons]
    split
    · rw [hchange k a hk, List.filterMap_cons]
      cases own? a with
      | none => exact ih hk
      | some act => exact ih (hkeeps k act hk)
    · exact ih hk

end Bus

/-! ### Requests -/

/-- **What does not make an interface signal** does not change it. -/
theorem BusAct.change_of_not_signals {d : Device} {a : BusAct} (hp : d.pia? ≠ none)
    (h : a.signals d = false) : a.change d = d := by
  cases d with
  | pia p =>
    cases a with
    | read address => exact congrArg Device.pia (Pia.read_of_not_signals h)
    | write address value => exact congrArg Device.pia (Pia.write_of_not_signals h value)
    | clock => rfl
    | load i offset bytes => rfl
    | drive i side value => exact congrArg Device.pia (Pia.drive_of_not_signals h value)
    | take i side => exact congrArg (fun r => Device.pia r.2) (Pia.take_of_not_signals h)
  | _ => exact absurd rfl hp

namespace Pia

theorem source_read (p : Pia) (offset : UInt16) : (p.read offset).2.source = p.source := by
  unfold read
  split
  · next register _ => cases register <;> rfl
  · rfl

theorem source_write (p : Pia) (offset : UInt16) (value : UInt8) :
    (p.write offset value).source = p.source := by
  unfold write
  split
  · next register _ => cases register <;> rfl
  · rfl

theorem source_drive (p : Pia) (side : Side) (value : UInt8) :
    (p.drive side value).source = p.source := by
  cases side <;> rfl

theorem source_take (p : Pia) (side : Side) : (p.take side).2.source = p.source := by
  cases side <;> rfl

end Pia

/-- The source by which a device holds the interrupt line, if it does. -/
def Device.source? (d : Device) : Option SourceId :=
  d.pia?.map Pia.source

namespace Bus

/-- The source by which the device at a place holds the interrupt line, if it does. -/
def sourceAt? (bus : Bus) (place : Nat) : Option SourceId :=
  (bus.device? place).bind Device.source?

theorem source?_change (d : Device) (a : BusAct) : (a.change d).source? = d.source? := by
  cases d with
  | pia p =>
    cases a with
    | read address => exact congrArg some (p.source_read _)
    | write address value => exact congrArg some (p.source_write _ value)
    | clock => rfl
    | load i offset bytes => rfl
    | drive i side value => exact congrArg some (p.source_drive side value)
    | take i side => exact congrArg some (p.source_take side)
  | ram m => cases a <;> rfl
  | rom m => cases a <;> rfl
  | screen s => cases a <;> rfl

/-- An update leaves every request as it is but that of the interface that is updated. -/
theorem request?_update {bus : Bus} {place : Nat} {signals : Device → Bool}
    {f : Device → Device} {source : SourceId}
    (h : ∀ d, bus.device? place = some d → (f d).source? ≠ some source) :
    (bus.update place signals f).irq.request? source = bus.irq.request? source := by
  rcases bus with ⟨devices, irq⟩
  unfold update
  dsimp only
  rw [Array.getElem?_modify, if_pos rfl]
  unfold device? at h
  dsimp only at h
  cases hd : devices[place]? with
  | none => rfl
  | some d =>
    have hne := h d hd
    rw [Option.map_some, Option.any_some]
    dsimp only
    split
    · cases hf : f d with
      | pia p =>
        refine (irq.request?_set p.source source p.requestsInterrupt).trans
          (if_neg fun hc => hne ?_)
        rw [hf, hc.1]
        rfl
      | _ => rfl
    · rfl

/-- The source of the interface on which an act works, if it works on one. -/
def touched? (bus : Bus) (a : BusAct) : Option SourceId :=
  (a.target? bus).bind bus.sourceAt?

/-- **An act changes no request** but that of the interface on which it works. -/
theorem request?_apply {bus : Bus} {a : BusAct} {source : SourceId}
    (h : bus.touched? a ≠ some source) :
    (a.apply bus).irq.request? source = bus.irq.request? source := by
  by_cases hclock : a = .clock
  · subst hclock
    rfl
  · rw [apply_eq_updateAt bus hclock]
    unfold touched? at h
    cases ha : a.target? bus with
    | none => rfl
    | some i =>
      rw [ha, Option.bind_some] at h
      refine request?_update fun d hd hc => h ?_
      unfold sourceAt?
      rw [hd, Option.bind_some, ← source?_change d a]
      exact hc

end Bus

end Nmos6502
