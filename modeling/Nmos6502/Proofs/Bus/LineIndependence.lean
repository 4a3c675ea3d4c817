import Nmos6502.Processor.Activity
import Nmos6502.Proofs.Bus.History
import Nmos6502.Proofs.InterruptLine.Sources

/-!
# Devices do not see their line

The devices on a bus put their requests on the line and never look at it. So what an act makes of the
devices does not depend on the line, and what it does to the line is a history that the line does not
determine either (`Bus.Blind`). This holds of everything that may happen to a bus (`BusAct.blind`) and
of a whole activity of the processor, which finds the same bytes and leaves the same journal whatever
the line is (`Activity.exists_run_eq`).

Two lines on which different handles are raised (`InterruptLine.SameBut`) therefore go on to differ in
these handles only.
-/

namespace Nmos6502

/-! ### Lines that differ in some handles -/

namespace InterruptLine

theorem after_append (line : InterruptLine) (acts acts' : List LineAct) :
    line.after (acts ++ acts') = (line.after acts).after acts' :=
  List.foldl_append

/-- Two lines with the same sources, of which only the given ones may have different requests. -/
structure SameBut (handles : List SourceId) (line line' : InterruptLine) : Prop where
  size_eq : line'.requests.size = line.requests.size
  isConnected_eq (source : SourceId) : line'.isConnected source = line.isConnected source
  request?_eq {source : SourceId} : source ∉ handles → line'.request? source = line.request? source

theorem sameBut_set (line : InterruptLine) (source : SourceId) (asserted : Bool) :
    line.SameBut [source] (line.set source asserted) := by
  refine ⟨line.size_set source asserted, fun other => ?_, fun {other} hother => ?_⟩
  · unfold isConnected
    rw [request?_set]
    split
    next h =>
      obtain ⟨rfl, hconnected⟩ := h
      exact (Option.isSome_some).trans hconnected.symm
    next => rfl
  · exact (line.request?_set source other asserted).trans
      (if_neg fun h => hother (List.mem_singleton.mpr h.1))

variable {handles : List SourceId} {line line' : InterruptLine}

theorem SameBut.connect (h : line.SameBut handles line') :
    line.connect.2.SameBut handles line'.connect.2 where
  size_eq := by
    unfold InterruptLine.connect
    dsimp only
    rw [Array.size_push, Array.size_push, h.size_eq]
  isConnected_eq source := by
    have hsource := h.isConnected_eq source
    unfold isConnected at hsource ⊢
    rw [request?_connect, request?_connect, h.size_eq]
    split
    · rfl
    · exact hsource
  request?_eq hs := by
    rw [request?_connect, request?_connect, h.size_eq, h.request?_eq hs]

/-- The two lines stay so whatever a source does to both. -/
theorem SameBut.apply (h : line.SameBut handles line') (a : LineAct) :
    (a.apply line).SameBut handles (a.apply line') := by
  by_cases ha : a = .connect
  · subst ha
    exact h.connect
  · constructor
    · rw [size_apply, size_apply, h.size_eq]
    · intro source
      have hsource := h.isConnected_eq source
      unfold isConnected
      rw [request?_apply line ha, request?_apply line' ha, hsource]
      split
      · rfl
      · exact hsource
    · intro source hs
      rw [request?_apply line ha, request?_apply line' ha, h.isConnected_eq, h.request?_eq hs]

theorem SameBut.after (h : line.SameBut handles line') (acts : List LineAct) :
    (line.after acts).SameBut handles (line'.after acts) := by
  induction acts using List.reverseRecOn with
  | nil => exact h
  | append_singleton acts a ih =>
    rw [after_append_singleton, after_append_singleton]
    exact ih.apply a

end InterruptLine

/-! ### What happens to a bus -/

/-- What a device puts on its line does not depend on the line. -/
theorem Device.exists_signal_eq (d : Device) : ∃ acts, ∀ irq, d.signal irq = irq.after acts := by
  cases d with
  | pia p => exact ⟨[.set p.source p.requestsInterrupt], fun _ => rfl⟩
  | ram m | rom m | screen s => exact ⟨[], fun _ => rfl⟩

/-- An operation that makes the same of the devices whatever the line is, and acts on every line in the
same way. -/
def Bus.Blind (f : Bus → Bus) : Prop :=
  ∀ devices, ∃ devices' acts, ∀ irq, f ⟨devices, irq⟩ = ⟨devices', irq.after acts⟩

theorem Bus.blind_updateAt (place? : Option Nat) (signals : Device → Bool)
    (f : Device → Device) : Blind fun bus => bus.updateAt place? signals f := by
  intro devices
  cases place? with
  | none => exact ⟨devices, [], fun _ => rfl⟩
  | some i =>
    cases hd : (devices.modify i f)[i]? with
    | none =>
      refine ⟨devices.modify i f, [], fun irq => ?_⟩
      unfold updateAt update
      dsimp only
      rw [hd]
      rfl
    | some d =>
      cases hsignals : devices[i]?.any signals with
      | false =>
        refine ⟨devices.modify i f, [], fun irq => ?_⟩
        unfold updateAt update
        dsimp only
        rw [hd, hsignals]
        rfl
      | true =>
        obtain ⟨acts, hsignal⟩ := d.exists_signal_eq
        refine ⟨devices.modify i f, acts, fun irq => ?_⟩
        unfold updateAt update
        dsimp only
        rw [hd, hsignals, ← hsignal]
        rfl

/-- **Whatever happens to a bus** happens without regard to the line. -/
theorem BusAct.blind (a : BusAct) : Bus.Blind fun bus => a.apply bus := by
  intro devices
  by_cases hclock : a = .clock
  · subst hclock
    exact ⟨devices.map Device.clock, [], fun _ => rfl⟩
  · -- which device an act reaches can be told from the devices
    have htarget : ∀ irq, a.target? ⟨devices, irq⟩ = a.target? ⟨devices, .new⟩ := by
      intro irq
      cases a <;> rfl
    obtain ⟨devices', acts, hupdate⟩ :=
      Bus.blind_updateAt (a.target? ⟨devices, .new⟩) a.signals a.change devices
    refine ⟨devices', acts, fun irq => (Bus.apply_eq_updateAt _ hclock).trans ?_⟩
    rw [htarget]
    exact hupdate irq

/-- **An activity** has the same value and the same journal whatever the line is. -/
theorem Activity.exists_run_eq {α : Type} (activity : Activity α) (devices : Array Device) :
    ∃ value devices' acts journal, ∀ irq,
      activity.run ⟨devices, irq⟩ = ⟨value, ⟨devices', irq.after acts⟩, journal⟩ := by
  induction activity generalizing devices with
  | done value => exact ⟨value, devices, [], [], fun _ => rfl⟩
  | read address next ih =>
    obtain ⟨devices₁, acts₁, hread⟩ := (BusAct.read address).blind devices
    obtain ⟨value, devices', acts, journal, hrest⟩ :=
      ih (Bus.peek ⟨devices, .new⟩ address) devices₁
    refine ⟨value, devices', acts₁ ++ acts,
      .read address (Bus.peek ⟨devices, .new⟩ address) :: journal, fun irq => ?_⟩
    have hbus : Bus.afterRead ⟨devices, irq⟩ address = ⟨devices₁, irq.after acts₁⟩ := hread irq
    have hpeek : Bus.peek ⟨devices, irq⟩ address = Bus.peek ⟨devices, .new⟩ address := rfl
    rw [run]
    unfold Bus.read
    dsimp only
    rw [hbus, hpeek, hrest, InterruptLine.after_append]
  | write address byte next ih =>
    obtain ⟨devices₁, acts₁, hwrite⟩ := (BusAct.write address byte).blind devices
    obtain ⟨value, devices', acts, journal, hrest⟩ := ih devices₁
    refine ⟨value, devices', acts₁ ++ acts, .write address byte ::
      ((Bus.writeEvents ⟨devices, .new⟩ address byte).map .event ++ journal), fun irq => ?_⟩
    have hbus : Bus.write ⟨devices, irq⟩ address byte = ⟨devices₁, irq.after acts₁⟩ := hwrite irq
    have hevents : Bus.writeEvents ⟨devices, irq⟩ address byte =
        Bus.writeEvents ⟨devices, .new⟩ address byte := rfl
    rw [run, hbus, hevents, hrest, InterruptLine.after_append]
  | note event next ih =>
    obtain ⟨value, devices', acts, journal, hrest⟩ := ih devices
    refine ⟨value, devices', acts, .event event :: journal, fun irq => ?_⟩
    rw [run, hrest]

end Nmos6502
