import Nmos6502.Proofs.Bus.Interfaces
import Nmos6502.Proofs.Device.Handshake
import Nmos6502.Proofs.Machine.Boundary

/-!
# Circuits

A machine with everything that is wired to the interrupt request line that it shares with the devices on
its bus (`Circuit`): interfaces on the bus and off it, and handles outside. What the processor does to
the bus is a history of reads and writes (`Machine.exists_bus_apply_eq_after`). Whatever happens to a
circuit, the line stays held by its owner, the interfaces and the handles (`Circuit.Held.apply`). An
interface may be built with any handle; if that asserts the line at the time, it goes on to do so until
the interface signals (`Circuit.builtRaised`).
-/

namespace Nmos6502

/-! ### Interfaces off the bus -/

namespace Pia

/-- A ready flag is set in the status register, and the control register lets its port ask for an
interrupt. -/
def Asks (p : Pia) : Prop :=
  bit p.status readyA = true ∧ bit p.control irqA = true ∨
    bit p.status readyB = true ∧ bit p.control irqB = true

theorem bit_status (p : Pia) :
    bit p.status readyA = p.a.ready ∧ bit p.status readyB = p.b.ready := by
  unfold status
  cases p.a.ready <;> cases p.b.ready <;> decide

theorem bit_control (p : Pia) :
    bit p.control irqA = p.a.interrupts ∧ bit p.control irqB = p.b.interrupts := by
  unfold control
  cases p.a.isOutput <;> cases p.b.isOutput <;> cases p.a.interrupts <;>
    cases p.b.interrupts <;> decide

theorem requestsInterrupt_iff (p : Pia) : p.requestsInterrupt = true ↔ p.Asks := by
  obtain ⟨hreadyA, hreadyB⟩ := p.bit_status
  obtain ⟨hirqA, hirqB⟩ := p.bit_control
  unfold Asks requestsInterrupt Port.requestsInterrupt
  rw [hreadyA, hreadyB, hirqA, hirqB, Bool.or_eq_true, Bool.and_eq_true, Bool.and_eq_true]

/-- Whether an act makes the interface signal. -/
def Act.signals (p : Pia) : Act → Bool
  | read offset => p.signalsRead offset
  | write offset _ => p.signalsWrite offset
  | drive side _ => p.signalsDrive side
  | take side => p.signalsTake side

theorem Act.apply_of_not_signals {p : Pia} {a : Act} (h : a.signals p = false) :
    a.apply p = p := by
  cases a with
  | read offset => exact read_of_not_signals h
  | write offset value => exact write_of_not_signals h value
  | drive side value => exact drive_of_not_signals h value
  | take side => exact congrArg Prod.snd (take_of_not_signals h)

end Pia

/-! ### The processor and the bus -/

namespace Machine

/-- An act of the processor, or of a source of its other line. -/
def Act.isOwn : Act → Bool
  | tick | step | reset | setRegisters _ | setNmi _ | setIrq _ | line .nmi _ => true
  | line .irq _ | bus _ => false

/-- An act in which the processor uses the bus. -/
def Act.usesBus : Act → Bool
  | tick | step | reset => true
  | setRegisters _ | setNmi _ | setIrq _ | line .. | bus _ => false

/-- The request that the processor puts on the line. -/
def Act.ownRequest? : Act → Option Bool
  | setIrq asserted => some asserted
  | tick | step | reset | setRegisters _ | setNmi _ | line .. | bus _ => none

theorem Act.eq_setIrq_of_ownRequest? {a : Act} {asserted : Bool}
    (h : a.ownRequest? = some asserted) : a = setIrq asserted := by
  cases a with
  | setIrq asserted' => exact congrArg setIrq (Option.some.inj h)
  | _ => cases h

theorem irq_updateIrq (m : Machine) (f : InterruptLine → InterruptLine) :
    (m.updateIrq f).irq = f m.irq := by
  unfold updateIrq irq
  cases m.ownIrq <;> rfl

theorem irq_of_ownIrq_eq_none {m : Machine} (h : m.ownIrq = none) : m.irq = m.bus.irq := by
  unfold irq
  rw [h]
  rfl

theorem updateIrq_of_ownIrq_eq_none {m : Machine} (h : m.ownIrq = none)
    (f : InterruptLine → InterruptLine) :
    m.updateIrq f = { m with bus := { m.bus with irq := f m.bus.irq } } := by
  unfold updateIrq
  rw [h]

/-- What the processor does to the bus is a history of reads and writes. -/
theorem exists_bus_apply_eq_after (m : Machine) {a : Act} (h : a.isOwn = true)
    (hr : a.ownRequest? = none) : (a.apply m).ownIrq = m.ownIrq ∧
      ∃ acts, (a.apply m).bus = m.bus.after acts ∧ (a.usesBus = false → acts = []) := by
  have htick : m.tick.machine.ownIrq = m.ownIrq ∧
      ∃ acts, m.tick.machine.bus = m.bus.after acts := by
    obtain ⟨hbus, hown, -⟩ := m.lines_tick
    refine ⟨hown, ?_⟩
    rw [hbus]
    split
    · exact (action m.registers m.sample.1).exists_run_eq_after m.bus
    · exact ⟨[], rfl⟩
  cases a with
  | tick =>
    obtain ⟨hown, acts, hbus⟩ := htick
    exact ⟨hown, acts, hbus, fun h => by cases h⟩
  | step =>
    obtain ⟨hown, acts, hbus⟩ := htick
    obtain ⟨hbus', hown', -⟩ := m.lines_step
    exact ⟨hown'.trans hown, acts, hbus'.trans hbus, fun h => by cases h⟩
  | reset =>
    obtain ⟨acts, hbus⟩ := (Activity.readWord resetVector).exists_run_eq_after m.bus
    exact ⟨rfl, acts, hbus, fun h => by cases h⟩
  | setRegisters registers => exact ⟨rfl, [], rfl, fun _ => rfl⟩
  | setNmi asserted => exact ⟨rfl, [], rfl, fun _ => rfl⟩
  | setIrq asserted => cases hr
  | line i act =>
    cases i with
    | nmi => exact ⟨rfl, [], rfl, fun _ => rfl⟩
    | irq => cases h
  | bus change => cases h

end Machine

/-! ### Circuits -/

/-- A machine with what is wired to the interrupt request line. -/
structure Circuit where
  machine : Machine
  /-- The interfaces that are not on the bus. -/
  loose : List Pia
  /-- The sources that no interface has. -/
  handles : List SourceId

namespace Circuit

/-- The interrupt request line. -/
def line (c : Circuit) : InterruptLine :=
  c.machine.irq

/-- All interfaces. -/
def interfaces (c : Circuit) : List Pia :=
  c.machine.bus.interfaces ++ c.loose

/-- The circuit once something has happened to the line. -/
def onLine (c : Circuit) (f : InterruptLine → InterruptLine) : Circuit :=
  { c with machine := c.machine.updateLine .irq f }

/-- What may happen to a circuit. -/
inductive Act
  | processor (a : Machine.Act) (own : a.isOwn = true)
  | bus (a : BusAct)
  /-- A device that is no interface is put on the bus. -/
  | attach (d : Device) (plain : d.pia? = none)
  /-- There is one handle more. -/
  | handle
  | set (source : SourceId) (asserted : Bool)
  | drop (source : SourceId)
  /-- A handle is given to a new interface, whose registers begin at an address. Where they do not fit
  there is no interface, and the handle is dropped. -/
  | build (first : UInt16) (source : SourceId)
  /-- An interface is put on the bus. -/
  | mount (k : Nat)
  | interface (k : Nat) (a : Pia.Act)
  /-- An interface is put on the bus in the place of another. -/
  | exchange (place k : Nat)
  /-- An interface is dropped, and its source with it. -/
  | dispose (k : Nat)
  /-- All devices on the bus are dropped. -/
  | clear

/-- The circuit afterwards. Where there is no such handle or interface, nothing happens. -/
def Act.apply (c : Circuit) : Act → Circuit
  | processor a _ => { c with machine := a.apply c.machine }
  | bus a => { c with machine := c.machine.onBus fun bus => a.apply bus }
  | attach d _ => { c with machine := c.machine.onBus fun bus => bus.attach d }
  | handle =>
    let (source, machine) := c.machine.connect .irq
    { c with machine := machine, handles := source :: c.handles }
  | set source asserted =>
    if source ∈ c.handles then c.onLine fun line => line.set source asserted else c
  | drop source =>
    if source ∈ c.handles then
      { c.onLine fun line => line.disconnect source with handles := c.handles.erase source }
    else c
  | build first source =>
    if source ∈ c.handles then
      match AddressRange.ofSize first Pia.registerCount with
      | .ok range =>
        { c with loose := .new range source :: c.loose, handles := c.handles.erase source }
      | .error _ =>
        { c.onLine fun line => line.disconnect source with handles := c.handles.erase source }
    else c
  | mount k =>
    match c.loose[k]? with
    | some p =>
      { c with
        machine := c.machine.onBus fun bus => bus.attach (.pia p)
        loose := c.loose.eraseIdx k }
    | none => c
  | interface k a =>
    match c.loose[k]? with
    | some p =>
      { (if a.signals p then c.onLine (a.apply p).signal else c) with
        loose := c.loose.set k (a.apply p) }
    | none => c
  | exchange place k =>
    match c.loose[k]?, (c.machine.bus.device? place).bind Device.pia? with
    | some p, some q =>
      { c with
        machine := c.machine.onBus fun bus => bus.replace place (.pia p)
        loose := c.loose.set k q }
    | _, _ => c
  | dispose k =>
    match c.loose[k]? with
    | some p =>
      { c.onLine fun line => line.disconnect p.source with loose := c.loose.eraseIdx k }
    | none => c
  | clear => { c with machine := c.machine.clearBus }

/-- A processor on a bus without devices, and nothing else on the line. -/
def start (nmi : InterruptLine) : Circuit :=
  ⟨.unreset (.empty .new) nmi none, [], []⟩

/-- The circuit after a history. -/
def after (c : Circuit) (acts : List Act) : Circuit :=
  acts.foldl Act.apply c

theorem after_append_singleton (c : Circuit) (acts : List Act) (a : Act) :
    c.after (acts ++ [a]) = a.apply (c.after acts) := by
  unfold after
  rw [List.foldl_append, List.foldl_cons, List.foldl_nil]

theorem apply_setIrq (c : Circuit) (asserted : Bool)
    (own : (Machine.Act.setIrq asserted).isOwn = true) :
    (Act.processor (.setIrq asserted) own).apply c =
      c.onLine fun line => line.set InterruptLine.owner asserted := rfl

theorem apply_handle (c : Circuit) : Act.handle.apply c =
    { c.onLine fun line => line.connect.2 with handles := c.line.connect.1 :: c.handles } := rfl

theorem request?_onLine (c : Circuit) (f : InterruptLine → InterruptLine) (source : SourceId) :
    (c.onLine f).line.request? source = (f c.line).request? source :=
  congrArg (InterruptLine.request? · source) (c.machine.irq_updateIrq f)

/-! ### The line stays held -/

/-- The processor shares the line with the devices on its bus, and it is held by the interfaces and the
handles of the circuit. -/
structure Held (c : Circuit) (early : SourceId → Prop) : Prop where
  ownIrq : c.machine.ownIrq = none
  bus : c.machine.bus.Held c.loose c.handles early

theorem held_start (nmi : InterruptLine) (early : SourceId → Prop) : (start nmi).Held early where
  ownIrq := rfl
  bus := {
    wired := {
      counts := rfl
      nodup := List.nodup_cons.mpr ⟨List.not_mem_nil, List.nodup_nil⟩
      isConnected_iff := fun source => by
        cases source with
        | zero => exact ⟨fun _ => List.mem_cons_self .., fun _ => rfl⟩
        | succ n => simp [InterruptLine.holders, InterruptLine.owner, Bus.interfaces, start,
            Machine.unreset, Bus.empty, InterruptLine.new, InterruptLine.isConnected,
            InterruptLine.request?] }
    follows := fun hp => by cases hp }

namespace Held

variable {c : Circuit} {early : SourceId → Prop}

theorem line_eq (h : c.Held early) : c.line = c.machine.bus.irq :=
  Machine.irq_of_ownIrq_eq_none h.ownIrq

theorem onLine_eq (h : c.Held early) (f : InterruptLine → InterruptLine) : c.onLine f =
    { c with machine :=
      { c.machine with bus := { c.machine.bus with irq := f c.machine.bus.irq } } } :=
  congrArg (fun m => { c with machine := m }) (Machine.updateIrq_of_ownIrq_eq_none h.ownIrq f)

theorem handles_perm {source : SourceId} (hs : source ∈ c.handles) :
    c.handles.Perm (source :: c.handles.erase source) :=
  List.perm_cons_erase hs

theorem loose_perm {k : Nat} {p : Pia} (hp : c.loose[k]? = some p) :
    c.loose.Perm (p :: c.loose.eraseIdx k) := by
  obtain ⟨hlt, rfl⟩ := List.getElem?_eq_some_iff.mp hp
  exact (List.getElem_cons_eraseIdx_perm hlt).symm

theorem loose_set_perm {k : Nat} {p : Pia} (hp : c.loose[k]? = some p) (p' : Pia) :
    (c.loose.set k p').Perm (p' :: c.loose.eraseIdx k) := by
  obtain ⟨hlt, -⟩ := List.getElem?_eq_some_iff.mp hp
  exact List.set_perm_cons_eraseIdx hlt p'

/-- The line as held by one of the interfaces off the bus before all others. -/
theorem of_loose (h : c.Held early) {k : Nat} {p : Pia} (hp : c.loose[k]? = some p) :
    c.machine.bus.irq.HeldBy
      (p :: (c.machine.bus.interfaces ++ c.loose.eraseIdx k)) c.handles early :=
  InterruptLine.HeldBy.perm (h.bus.perm_loose (loose_perm hp)) List.perm_middle (.refl _)

/-- A new interface has nothing to ask for, but what its source has asserted stays on the line. -/
theorem follows_new (h : c.Held early) {source : SourceId} (hs : source ∈ c.handles)
    (he : c.line.isAsserting source = true → early source) (range : AddressRange) :
    (Pia.new range source).Follows early c.machine.bus.irq := by
  have hmem : source ∈ InterruptLine.holders (c.machine.bus.interfaces ++ c.loose) c.handles :=
    List.mem_cons_of_mem _ (List.mem_append_right _ hs)
  have hc := (h.bus.wired.isConnected_iff source).mpr hmem
  obtain ⟨asserted, hrequest⟩ := InterruptLine.isConnected_iff.mp hc
  cases asserted with
  | false => exact Or.inl hrequest
  | true =>
    refine Or.inr ⟨he ?_, hrequest, rfl⟩
    rw [h.line_eq]
    exact InterruptLine.isAsserting_iff.mpr hrequest

theorem drop (h : c.Held early) {source : SourceId} (hs : source ∈ c.handles) :
    Held { c.onLine fun line => line.disconnect source with handles := c.handles.erase source }
      early := by
  have hheld := InterruptLine.HeldBy.perm h.bus (.refl _) (handles_perm hs)
  rw [h.onLine_eq]
  exact ⟨h.ownIrq, hheld.disconnect_handle⟩

theorem processor (h : c.Held early) {a : Machine.Act} (own : a.isOwn = true) :
    ((Act.processor a own).apply c).Held early := by
  cases hr : a.ownRequest? with
  | none =>
    obtain ⟨hown, acts, hbus, -⟩ := c.machine.exists_bus_apply_eq_after own hr
    refine ⟨hown.trans h.ownIrq, ?_⟩
    change (a.apply c.machine).bus.Held c.loose c.handles early
    rw [hbus]
    exact h.bus.after acts
  | some asserted =>
    obtain rfl := Machine.Act.eq_setIrq_of_ownRequest? hr
    rw [apply_setIrq, h.onLine_eq]
    exact ⟨h.ownIrq, InterruptLine.HeldBy.set h.bus (List.mem_cons_self ..) asserted⟩

/-- **The line stays held** whatever happens to the circuit. -/
theorem apply (h : c.Held early) (a : Act)
    (hbuild : ∀ first, ∀ source ∈ c.handles, a = .build first source →
      c.line.isAsserting source = true → early source) : (a.apply c).Held early := by
  cases a with
  | processor a own => exact h.processor own
  | bus a => exact ⟨h.ownIrq, h.bus.apply a⟩
  | attach d plain => exact ⟨h.ownIrq, h.bus.attach plain⟩
  | handle =>
    rw [apply_handle, h.onLine_eq, h.line_eq]
    exact ⟨h.ownIrq, InterruptLine.HeldBy.connect h.bus⟩
  | set source asserted =>
    simp only [Act.apply]
    split
    · next hs =>
      rw [h.onLine_eq]
      exact ⟨h.ownIrq, InterruptLine.HeldBy.set h.bus (List.mem_cons_of_mem _ hs) asserted⟩
    · exact h
  | drop source =>
    simp only [Act.apply]
    split
    · next hs => exact h.drop hs
    · exact h
  | build first source =>
    simp only [Act.apply]
    split
    · next hs =>
      split
      · next range _ =>
        have hheld := InterruptLine.HeldBy.perm h.bus (.refl _) (handles_perm hs)
        have hfollows := h.follows_new hs (hbuild first source hs rfl) range
        have hbuilt := hheld.build hfollows
        exact ⟨h.ownIrq, hbuilt.perm List.perm_middle.symm (.refl _)⟩
      · exact h.drop hs
    · exact h
  | mount k =>
    simp only [Act.apply]
    split
    · next p hp => exact ⟨h.ownIrq, (h.bus.perm_loose (loose_perm hp)).mount⟩
    · exact h
  | interface k a =>
    simp only [Act.apply]
    split
    · next p hp =>
      have hperm := List.perm_middle.symm.trans
        ((loose_set_perm hp (a.apply p)).symm.append_left c.machine.bus.interfaces)
      split
      · rw [h.onLine_eq]
        have hsignal := (h.of_loose hp).signal (p.source_apply a)
        exact ⟨h.ownIrq, hsignal.perm hperm (.refl _)⟩
      · next hquiet =>
        have hsame := Pia.Act.apply_of_not_signals (Bool.eq_false_iff.mpr hquiet)
        rw [hsame] at hperm ⊢
        exact ⟨h.ownIrq, (h.of_loose hp).perm hperm (.refl _)⟩
    · exact h
  | exchange place k =>
    simp only [Act.apply]
    split
    · next p q hp hq =>
      obtain ⟨d, hd, hdq⟩ := Option.bind_eq_some_iff.mp hq
      rw [Device.eq_pia_of_pia? hdq] at hd
      have hexchange := (h.bus.perm_loose (loose_perm hp)).exchange hd
      exact ⟨h.ownIrq, hexchange.perm_loose (loose_set_perm hp q).symm⟩
    · exact h
  | dispose k =>
    simp only [Act.apply]
    split
    · next p hp =>
      rw [h.onLine_eq]
      exact ⟨h.ownIrq, (h.of_loose hp).disconnect⟩
    · exact h
  | clear => exact ⟨h.ownIrq, h.bus.clear⟩

end Held

/-- The source that an act gives to an interface while it asserts the line, if there is one. -/
def Act.raised? (c : Circuit) : Act → Option SourceId
  | build _ source => if c.line.isAsserting source then some source else none
  | processor .. | bus _ | attach .. | handle | set .. | drop _ | mount _ | interface .. | exchange ..
  | dispose _ | clear => none

/-- The sources that a history gives to interfaces while they assert the line. -/
def builtRaised (c : Circuit) : List Act → List SourceId
  | [] => []
  | a :: rest => (a.raised? c).toList ++ builtRaised (a.apply c) rest

theorem builtRaised_append_singleton (c : Circuit) (acts : List Act) (a : Act) :
    c.builtRaised (acts ++ [a]) = c.builtRaised acts ++ (a.raised? (c.after acts)).toList := by
  induction acts generalizing c with
  | nil => exact List.append_nil _
  | cons first rest ih =>
    rw [List.cons_append, builtRaised, builtRaised, ih, List.append_assoc]
    rfl

/-- **The line of a circuit** is held by its holders after every history. -/
theorem held_after (nmi : InterruptLine) (acts : List Act) :
    ((start nmi).after acts).Held (· ∈ (start nmi).builtRaised acts) := by
  induction acts using List.reverseRecOn with
  | nil => exact held_start nmi _
  | append_singleton acts a ih =>
    rw [after_append_singleton, builtRaised_append_singleton]
    have hbefore : ((start nmi).after acts).Held
        (· ∈ (start nmi).builtRaised acts ++ (a.raised? ((start nmi).after acts)).toList) :=
      ⟨ih.ownIrq, ih.bus.mono fun p _ hp => Or.inl (List.mem_append_left _ hp)⟩
    refine hbefore.apply a ?_
    rintro first source - rfl hraised
    have hsource : (Act.build first source).raised? ((start nmi).after acts) = some source :=
      if_pos hraised
    rw [hsource]
    exact List.mem_append_right _ (List.mem_singleton_self source)

end Circuit

end Nmos6502
