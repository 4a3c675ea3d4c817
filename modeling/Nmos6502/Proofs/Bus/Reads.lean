import Nmos6502.Proofs.Bus.Interfaces
import Nmos6502.Proofs.Bus.ShadowedMemory

/-!
# Reads

What a read of the bus changes. The only thing that a read changes is the ready flag of an input port
that it collects from, and with that the request of the interface (`Bus.afterRead_eq`). A second read
finds what the first one found and collects nothing more (`Bus.read_afterRead`). On a line that follows
its sources a read can only withdraw a request, and never raises it
(`Bus.Held.isRaised_of_afterRead`).
-/

namespace Nmos6502

namespace InterruptLine

/-- To withdraw a request raises no line. -/
theorem Counts.isRaised_of_set_false {line : InterruptLine} (h : line.Counts)
    (hlt : line.assertions < UInt32.size) {source : SourceId}
    (hr : (line.set source false).isRaised = true) : line.isRaised = true := by
  cases hrequest : line.request? source with
  | none => rwa [set_of_request?_eq_none hrequest] at hr
  | some before =>
    have hle := assertions_set hrequest false
    have hroom : (line.set source false).assertions < UInt32.size := by
      rw [Bool.toNat_false] at hle
      omega
    obtain ⟨other, hother⟩ := ((h.set source false).isRaised_iff hroom).mp hr
    refine (h.isRaised_iff hlt).mpr ⟨other, ?_⟩
    rw [isAsserting_iff, request?_set] at hother
    rw [isAsserting_iff]
    split at hother
    · cases hother
    · exact hother

end InterruptLine

/-! ### Ports -/

namespace Pia

/-- The port at an offset, if there is one. -/
def portAt? (offset : UInt16) : Option Side :=
  match Register.at? offset with
  | some .portA => some .a
  | some .portB => some .b
  | some .control | some .status | none => none

/-- The interface with its data collected from one of its ports. -/
def collected (p : Pia) (side : Side) : Pia :=
  p.setPort side { p.port side with ready := false }

theorem source_collected (p : Pia) (side : Side) : (p.collected side).source = p.source := by
  cases side <;> rfl

/-- A read that makes the interface signal collects from an input. -/
theorem read_of_signals {p : Pia} {offset : UInt16} (h : p.signalsRead offset = true) :
    ∃ side, portAt? offset = some side ∧ (p.port side).isWaiting = true ∧
      (p.read offset).2 = p.collected side := by
  unfold signalsRead at h
  unfold portAt? read
  cases hr : Register.at? offset with
  | none =>
    rw [hr] at h
    cases h
  | some register =>
    rw [hr] at h
    cases register with
    | portA =>
      exact ⟨.a, rfl, h, congrArg (fun r => { p with a := r.2 }) (Port.read_of_waiting h)⟩
    | portB =>
      exact ⟨.b, rfl, h, congrArg (fun r => { p with b := r.2 }) (Port.read_of_waiting h)⟩
    | control => cases h
    | status => cases h

/-- A second read finds what the first one found, and nothing to collect. -/
theorem read_read (p : Pia) (offset : UInt16) :
    ((p.read offset).2.read offset).1 = (p.read offset).1 ∧
      (p.read offset).2.signalsRead offset = false := by
  have hport : ∀ port : Port, port.read.2.data = port.data ∧ port.read.2.isWaiting = false := by
    rintro ⟨data, ready, isOutput, interrupts⟩
    cases isOutput <;> exact ⟨rfl, rfl⟩
  unfold read signalsRead
  cases Register.at? offset with
  | none => exact ⟨rfl, rfl⟩
  | some register =>
    cases register with
    | portA => exact hport p.a
    | portB => exact hport p.b
    | control => exact ⟨rfl, rfl⟩
    | status => exact ⟨rfl, rfl⟩

/-- An interface does not come to ask for an interrupt because data is collected. -/
theorem requestsInterrupt_of_collected {p : Pia} {side : Side}
    (h : (p.collected side).requestsInterrupt = true) : p.requestsInterrupt = true := by
  unfold requestsInterrupt at h ⊢
  rw [Bool.or_eq_true] at h ⊢
  cases side with
  | a =>
    rcases h with h | h
    · cases h
    · exact Or.inr h
  | b =>
    rcases h with h | h
    · exact Or.inl h
    · cases h

end Pia

namespace Device

theorem read_of_not_signals {d : Device} {offset : UInt16} (h : d.signalsRead offset = false) :
    (d.read offset).2 = d := by
  cases d with
  | pia p => exact congrArg pia (Pia.read_of_not_signals h)
  | _ => rfl

/-- A second read of a device finds what the first one found, and nothing to collect. -/
theorem read_read (d : Device) (offset : UInt16) :
    ((d.read offset).2.read offset).1 = (d.read offset).1 ∧
      (d.read offset).2.signalsRead offset = false := by
  cases d with
  | pia p => exact p.read_read offset
  | _ => exact ⟨rfl, rfl⟩

end Device

namespace Bus

variable {bus : Bus} {address : UInt16} {i : Nat} {d : Device}

/-! ### Reading twice -/

theorem afterRead_of_isFirst (h : bus.IsFirst address i d) : bus.afterRead address =
    bus.update i (fun d => d.signalsRead (d.range.offset address))
      fun d => (d.read (d.range.offset address)).2 := by
  unfold afterRead
  rw [h.owner?]

/-- A read that collects nothing changes nothing. -/
theorem afterRead_of_not_signals (h : bus.IsFirst address i d)
    (hs : d.signalsRead (d.range.offset address) = false) : bus.afterRead address = bus := by
  rw [afterRead_of_isFirst h, update_eq h.1, hs, Device.read_of_not_signals hs, replace_self h.1]
  rfl

theorem IsFirst.afterRead (h : bus.IsFirst address i d) :
    (bus.afterRead address).IsFirst address i (d.read (d.range.offset address)).2 := by
  have hevolve := h.after [.read address]
  have hchange : bus.evolve i [.read address] d = (d.read (d.range.offset address)).2 :=
    if_pos (beq_iff_eq.mpr h.owner?)
  rw [hchange] at hevolve
  exact hevolve

/-- **A second read** of an address finds what the first one found, and changes nothing. -/
theorem read_afterRead (bus : Bus) (address : UInt16) :
    (bus.afterRead address).read address = ((bus.read address).1, bus.afterRead address) := by
  cases howner : bus.owner? address with
  | none =>
    have hsame : bus.afterRead address = bus := by
      unfold Bus.afterRead
      rw [howner]
    rw [hsame]
    exact Prod.ext rfl hsame
  | some i =>
    obtain ⟨⟨d, hd, -⟩, -⟩ := owner?_eq_some_iff.mp howner
    have hfirst : bus.IsFirst address i d := isFirst_iff.mpr ⟨howner, hd⟩
    obtain ⟨hvalue, hquiet⟩ := d.read_read (d.range.offset address)
    refine Prod.ext ?_ (afterRead_of_not_signals hfirst.afterRead ?_)
    · rw [hfirst.afterRead.read, hfirst.read, Device.range_read, hvalue]
    · rw [Device.range_read, hquiet]

/-! ### What a read changes -/

/-- **The only thing that a read changes** is the ready flag of an input port that it collects from, and
with that the request of the interface. -/
theorem afterRead_eq (bus : Bus) (address : UInt16) : bus.afterRead address = bus ∨
    ∃ i p side, bus.IsFirst address i (.pia p) ∧
      Pia.portAt? (p.range.offset address) = some side ∧ (p.port side).isWaiting = true ∧
      bus.afterRead address = bus.update i (fun _ => true) fun _ => .pia (p.collected side) := by
  cases howner : bus.owner? address with
  | none =>
    refine Or.inl ?_
    unfold Bus.afterRead
    rw [howner]
  | some i =>
    obtain ⟨⟨d, hd, -⟩, -⟩ := owner?_eq_some_iff.mp howner
    have hfirst : bus.IsFirst address i d := isFirst_iff.mpr ⟨howner, hd⟩
    cases hs : d.signalsRead (d.range.offset address) with
    | false => exact Or.inl (afterRead_of_not_signals hfirst hs)
    | true =>
      cases d with
      | pia p =>
        obtain ⟨side, hport, hwaiting, hread⟩ := Pia.read_of_signals hs
        refine Or.inr ⟨i, p, side, hfirst, hport, hwaiting, ?_⟩
        have hchange : ((Device.pia p).read (p.range.offset address)).2 =
            .pia (p.collected side) := congrArg Device.pia hread
        rw [afterRead_of_isFirst hfirst, update_eq hd, update_eq hd, hs]
        exact congrArg (fun d => { bus.replace i d with irq := d.signal bus.irq }) hchange
      | ram m => cases hs
      | rom m => cases hs
      | screen s => cases hs

namespace Held

variable {loose : List Pia} {handles : List SourceId} {early : SourceId → Prop}

/-- The request of an interface at which something waits is on the line. -/
theorem isOn_of_waiting (h : bus.Held loose handles early) {p : Pia}
    (hp : bus.device? i = some (.pia p)) {side : Pia.Side}
    (hwaiting : (p.port side).isWaiting = true) : p.IsOn bus.irq := by
  have hmem : p ∈ bus.interfaces ++ loose := List.mem_append_left _ (List.mem_filterMap.mpr
    ⟨.pia p, Array.mem_toList_iff.mpr (Array.mem_iff_getElem?.mpr ⟨i, hp⟩), rfl⟩)
  rcases h.follows hmem with hon | ⟨-, -, hnew⟩
  · exact hon
  · rw [hnew] at hwaiting
    cases side <;> cases hwaiting

/-- **A read raises no line** that follows its sources. -/
theorem isRaised_of_afterRead (h : bus.Held loose handles early)
    (hlt : bus.irq.assertions < UInt32.size)
    (hr : (bus.afterRead address).irq.isRaised = true) : bus.irq.isRaised = true := by
  rcases bus.afterRead_eq address with hsame | ⟨i, p, side, hfirst, -, hwaiting, hafter⟩
  · rwa [hsame] at hr
  · have hrequest : p.IsOn bus.irq := h.isOn_of_waiting hfirst.1 hwaiting
    rw [hafter, update_eq hfirst.1] at hr
    change (bus.irq.set (p.collected side).source _).isRaised = true at hr
    rw [Pia.source_collected] at hr
    cases hc : (p.collected side).requestsInterrupt with
    | false =>
      rw [hc] at hr
      exact InterruptLine.Counts.isRaised_of_set_false h.wired.counts hlt hr
    | true =>
      rw [hc, InterruptLine.set_of_request? hrequest,
        if_pos (Pia.requestsInterrupt_of_collected hc)] at hr
      exact hr

end Held

end Bus

end Nmos6502
