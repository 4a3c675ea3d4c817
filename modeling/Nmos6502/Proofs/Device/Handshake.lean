import Nmos6502.Proofs.Bus.History
import Nmos6502.Proofs.Processor.Results

/-!
# Two handshakes

Each port of a parallel interface is an automaton of its own. What it holds for the other side is a
byte and a flag (`Handshake`); in each direction only some acts change them, and only some obtain the
byte (`Handshake.next`, `Handshake.answer`). What happens to the interface happens at one port, at both
or at none (`Pia.Act.onPort?`), so that a history of the interface is one of each port
(`Pia.port_after`). The ports share nothing but the control and status registers: between two writes
to these, a port only sees what is addressed to it (`Pia.port_after_filter`). On a bus, too, an
interface goes through such a history (`Bus.evolve_pia`).
-/

namespace Nmos6502

/-! ### One port -/

namespace Port

/-- What may happen to a port. -/
inductive Act
  | read
  | write (value : UInt8)
  /-- The status register is written, with a bit for the ready flag. -/
  | mark (ready : Bool)
  /-- The control register is written, with bits for the direction and the interrupts. -/
  | configure (isOutput interrupts : Bool)
  | drive (value : UInt8)
  | take
  deriving DecidableEq

/-- The port afterwards. -/
def Act.apply (p : Port) : Act → Port
  | read => p.read.2
  | write value => p.write value
  | mark ready => p.setReady ready
  | configure isOutput interrupts => p.configure isOutput interrupts
  | drive value => p.drive value
  | take => p.take.2

/-- The byte that is obtained from a port. -/
def Act.byte? (p : Port) : Act → Option UInt8
  | read => some p.read.1
  | take => p.take.1
  | _ => none

end Port

/-- What a port holds for the other side: a byte, and whether it waits to be collected. -/
structure Handshake where
  data : UInt8
  ready : Bool
  deriving DecidableEq

namespace Handshake

open Port (Act)

/-- What becomes of an output: the peripheral drives it, and nothing else changes it. -/
def asOutput (h : Handshake) : Act → Handshake
  | .drive value => ⟨value, true⟩
  | .write _ | .mark _ | .read | .take | .configure .. => h

/-- What becomes of an input: the bus writes it, and whoever reads or takes it has collected. -/
def asInput (h : Handshake) : Act → Handshake
  | .write value => ⟨value, true⟩
  | .read => { h with ready := false }
  | .take => if h.ready then { h with ready := false } else h
  | .mark ready => { h with ready := ready }
  | .drive _ | .configure .. => h

/-- What becomes of a port in one of the two directions. -/
def next (isOutput : Bool) (h : Handshake) (a : Act) : Handshake :=
  if isOutput then h.asOutput a else h.asInput a

/-- The byte that is obtained. It is only taken from an input, and only if it waits. -/
def answer (isOutput : Bool) (h : Handshake) : Act → Option UInt8
  | .read => some h.data
  | .take => if isOutput then none else if h.ready then some h.data else none
  | .write _ | .mark _ | .configure .. | .drive _ => none

end Handshake

namespace Port

/-- What a port holds for the other side. -/
def handshake (p : Port) : Handshake :=
  ⟨p.data, p.ready⟩

/-- **A port is a handshake.** -/
theorem handshake_apply (p : Port) (a : Act) :
    (a.apply p).handshake = p.handshake.next p.isOutput a := by
  rcases p with ⟨data, ready, isOutput, interrupts⟩
  cases a <;> cases isOutput <;> cases ready <;> rfl

/-- Only the control register gives a port its direction. -/
theorem keeps_apply (p : Port) {a : Act} (h : ∀ out irq, a ≠ .configure out irq) :
    (a.apply p).isOutput = p.isOutput ∧ (a.apply p).interrupts = p.interrupts := by
  rcases p with ⟨data, ready, isOutput, interrupts⟩
  cases a with
  | configure o i => exact absurd rfl (h o i)
  | _ => cases isOutput <;> cases ready <;> exact ⟨rfl, rfl⟩

theorem byte?_eq_answer (p : Port) (a : Act) :
    a.byte? p = p.handshake.answer p.isOutput a := by
  rcases p with ⟨data, ready, isOutput, interrupts⟩
  cases a <;> cases isOutput <;> cases ready <;> rfl

end Port

/-! ### Both ports -/

namespace Pia

/-- The offset of a register. -/
def Register.offset : Register → UInt16
  | portA => 0
  | portB => 1
  | control => 2
  | status => 3

theorem Register.at?_eq_some_iff {offset : UInt16} {register : Register} :
    at? offset = some register ↔ offset = register.offset := by
  constructor
  · intro h
    unfold at? at h
    split_ifs at h with h₀ h₁ h₂ h₃ <;> cases h
    · exact h₀
    · exact h₁
    · exact h₂
    · exact h₃
  · rintro rfl
    cases register <;> rfl

theorem Register.ne_offset_of_at?_eq_none {offset : UInt16} (h : at? offset = none)
    (register : Register) : offset ≠ register.offset := by
  intro hoffset
  rw [at?_eq_some_iff.mpr hoffset] at h
  cases h

namespace Side

/-- The register of the port. -/
def register : Side → Register
  | a => .portA
  | b => .portB

/-- The control bit that makes the port an output. -/
def outBit : Side → UInt8
  | a => outA
  | b => outB

/-- The control bit that lets the port ask for interrupts. -/
def irqBit : Side → UInt8
  | a => irqA
  | b => irqB

/-- The status bit that says that the port is ready. -/
def readyBit : Side → UInt8
  | a => readyA
  | b => readyB

end Side

/-- What may happen to an interface. -/
inductive Act
  | read (offset : UInt16)
  | write (offset : UInt16) (value : UInt8)
  | drive (side : Side) (value : UInt8)
  | take (side : Side)

deriving instance DecidableEq for Act

/-- The interface afterwards. -/
def Act.apply (p : Pia) : Act → Pia
  | read offset => (p.read offset).2
  | write offset value => p.write offset value
  | drive side value => p.drive side value
  | take side => (p.take side).2

theorem source_apply (p : Pia) (a : Act) : (a.apply p).source = p.source := by
  cases a with
  | read offset => exact p.source_read offset
  | write offset value => exact p.source_write offset value
  | drive side value => exact p.source_drive side value
  | take side => exact p.source_take side

namespace Act

/-- The byte that is obtained from the interface. -/
def byte? (p : Pia) : Act → Option UInt8
  | read offset => some (p.read offset).1
  | take side => (p.take side).1
  | write .. | drive .. => none

/-- An act is addressed to a port. -/
def addresses (side : Side) : Act → Bool
  | read offset | write offset _ => offset == side.register.offset
  | drive other _ | take other => other == side

/-- The control or the status register is written, which both ports share. -/
def isShared : Act → Bool
  | write offset _ => offset == Register.control.offset || offset == Register.status.offset
  | read _ | drive .. | take _ => false

/-- What an act is to a port, if it is anything. -/
def onPort? (side : Side) : Act → Option Port.Act
  | read offset => if offset = side.register.offset then some .read else none
  | write offset value =>
    if offset = side.register.offset then some (.write value)
    else if offset = Register.control.offset then
      some (.configure (bit value side.outBit) (bit value side.irqBit))
    else if offset = Register.status.offset then some (.mark (bit value side.readyBit))
    else none
  | drive other value => if other = side then some (.drive value) else none
  | take other => if other = side then some .take else none

end Act

/-- The interface after a history. -/
def after (p : Pia) (acts : List Act) : Pia :=
  acts.foldl Act.apply p

/-- **What happens to the interface** happens at each port, or not at all. -/
theorem port_apply (p : Pia) (act : Act) (side : Side) :
    (act.apply p).port side =
      (act.onPort? side).elim (p.port side) (Port.Act.apply (p.port side)) := by
  cases act with
  | read offset =>
    change (p.read offset).2.port side = _
    unfold read Act.onPort?
    cases h : Register.at? offset with
    | none =>
      simp only [if_neg (Register.ne_offset_of_at?_eq_none h _)]
      rfl
    | some register =>
      obtain rfl := Register.at?_eq_some_iff.mp h
      cases register <;> cases side <;> rfl
  | write offset value =>
    change (p.write offset value).port side = _
    unfold write Act.onPort?
    cases h : Register.at? offset with
    | none =>
      simp only [if_neg (Register.ne_offset_of_at?_eq_none h _)]
      rfl
    | some register =>
      obtain rfl := Register.at?_eq_some_iff.mp h
      cases register <;> cases side <;> rfl
  | drive other value => cases other <;> cases side <;> rfl
  | take other => cases other <;> cases side <;> rfl

/-- What is obtained from the interface is obtained from a port. -/
theorem byte?_of_onPort? {act : Act} {side : Side} {a : Port.Act} (p : Pia)
    (h : act.onPort? side = some a) : act.byte? p = a.byte? (p.port side) := by
  cases act with
  | read offset =>
    obtain ⟨rfl, rfl⟩ : offset = side.register.offset ∧ a = .read := by
      simpa [Act.onPort?, eq_comm] using h
    cases side <;> rfl
  | write offset value =>
    unfold Act.onPort? at h
    dsimp only at h
    split_ifs at h <;> cases h <;> rfl
  | drive other value =>
    obtain ⟨rfl, rfl⟩ : other = side ∧ a = .drive value := by
      simpa [Act.onPort?, eq_comm] using h
    rfl
  | take other =>
    obtain ⟨rfl, rfl⟩ : other = side ∧ a = .take := by
      simpa [Act.onPort?, eq_comm] using h
    cases other <;> rfl

/-- **A history of the interface is one of each port.** -/
theorem port_after (p : Pia) (acts : List Act) (side : Side) :
    (p.after acts).port side =
      (acts.filterMap (Act.onPort? side)).foldl Port.Act.apply (p.port side) := by
  induction acts generalizing p with
  | nil => rfl
  | cons act rest ih =>
    change ((act.apply p).after rest).port side = _
    rw [ih, port_apply, List.filterMap_cons]
    cases act.onPort? side <;> rfl

/-! ### The control register -/

theorem bit_control_out (p : Pia) (side : Side) :
    bit p.control side.outBit = (p.port side).isOutput := by
  have hall : ∀ a b c d : Bool,
      let control := flag a outA ||| flag b outB ||| flag c irqA ||| flag d irqB
      bit control outA = a ∧ bit control outB = b := by decide
  obtain ⟨ha, hb⟩ := hall p.a.isOutput p.b.isOutput p.a.interrupts p.b.interrupts
  cases side with
  | a => exact ha
  | b => exact hb

theorem control_lt (p : Pia) : p.control < 16 := by
  have hall : ∀ a b c d : Bool,
      flag a outA ||| flag b outB ||| flag c irqA ||| flag d irqB < 16 := by decide
  exact hall p.a.isOutput p.b.isOutput p.a.interrupts p.b.interrupts

theorem bits_eq_and (value : UInt8) : flag (bit value outA) outA ||| flag (bit value outB) outB |||
    flag (bit value irqA) irqA ||| flag (bit value irqB) irqB = value &&& 0x0F :=
  forall_byte (P := fun value => flag (bit value outA) outA ||| flag (bit value outB) outB |||
    flag (bit value irqA) irqA ||| flag (bit value irqB) irqB = value &&& 0x0F)
    (by decide +kernel) value

/-- All that is in the control register are the directions and the interrupts of the ports. -/
theorem control_congr {p q : Pia} (h : ∀ side, (p.port side).isOutput = (q.port side).isOutput ∧
    (p.port side).interrupts = (q.port side).interrupts) : p.control = q.control := by
  have ha : p.a.isOutput = q.a.isOutput := (h .a).1
  have ha' : p.a.interrupts = q.a.interrupts := (h .a).2
  have hb : p.b.isOutput = q.b.isOutput := (h .b).1
  have hb' : p.b.interrupts = q.b.interrupts := (h .b).2
  unfold control
  rw [ha, ha', hb, hb']

/-- What an act puts into the control register, which has four bits. -/
def Act.control? : Act → Option UInt8
  | write offset value => if offset = Register.control.offset then some (value &&& 0x0F) else none
  | read _ | drive .. | take _ => none

theorem Act.onPort?_ne_configure {act : Act} (h : act.control? = none) (side : Side)
    (isOutput interrupts : Bool) : act.onPort? side ≠ some (.configure isOutput interrupts) := by
  cases act with
  | write offset value =>
    have hoffset : offset ≠ Register.control.offset := by
      intro hoffset
      have hsome : (write offset value).control? = some (value &&& 0x0F) := if_pos hoffset
      rw [hsome] at h
      cases h
    unfold onPort?
    dsimp only
    rw [if_neg hoffset]
    split_ifs <;> exact nofun
  | _ =>
    unfold onPort?
    dsimp only
    split_ifs <;> exact nofun

/-- **The control register** is changed by writes to it alone. -/
theorem control_apply (p : Pia) (act : Act) : (act.apply p).control = act.control?.getD p.control := by
  cases h : act.control? with
  | none =>
    refine control_congr fun side => ?_
    rw [port_apply]
    cases ha : act.onPort? side with
    | none => exact ⟨rfl, rfl⟩
    | some a =>
      refine (p.port side).keeps_apply fun out irq he => ?_
      exact act.onPort?_ne_configure h side out irq (he ▸ ha)
  | some control =>
    cases act with
    | write offset value =>
      obtain ⟨rfl, hcontrol⟩ := Option.ite_none_right_eq_some.mp h
      cases hcontrol
      exact bits_eq_and value
    | _ => cases h

/-! ### Acts at different ports -/

namespace Act

variable {act : Act} {side other : Side}

/-- An act that is addressed to one port is nothing to the other. -/
theorem onPort?_of_addresses (h : act.addresses side = true) (hne : other ≠ side) :
    act.onPort? other = none := by
  have hoffset : side.register.offset ≠ other.register.offset := by
    cases side <;> cases other <;> first | exact absurd rfl hne | decide
  have hcontrol : side.register.offset ≠ Register.control.offset := by cases side <;> decide
  have hstatus : side.register.offset ≠ Register.status.offset := by cases side <;> decide
  cases act with
  | read offset =>
    obtain rfl : offset = side.register.offset := beq_iff_eq.mp h
    exact if_neg hoffset
  | write offset value =>
    obtain rfl : offset = side.register.offset := beq_iff_eq.mp h
    exact (if_neg hoffset).trans ((if_neg hcontrol).trans (if_neg hstatus))
  | drive s value =>
    obtain rfl : s = side := beq_iff_eq.mp h
    exact if_neg hne.symm
  | take s =>
    obtain rfl : s = side := beq_iff_eq.mp h
    exact if_neg hne.symm

theorem onPort?_of_not_addresses (hshared : act.isShared = false) (h : act.addresses side = false) :
    act.onPort? side = none := by
  cases act with
  | read offset => exact if_neg (beq_eq_false_iff_ne.mp h)
  | write offset value =>
    obtain ⟨hcontrol, hstatus⟩ := Bool.or_eq_false_iff.mp hshared
    exact (if_neg (beq_eq_false_iff_ne.mp h)).trans
      ((if_neg (beq_eq_false_iff_ne.mp hcontrol)).trans (if_neg (beq_eq_false_iff_ne.mp hstatus)))
  | drive other value => exact if_neg (beq_eq_false_iff_ne.mp h)
  | take other => exact if_neg (beq_eq_false_iff_ne.mp h)

end Act

/-- An act at one port leaves the other as it is. -/
theorem port_apply_of_addresses {act : Act} {side other : Side} (h : act.addresses side = true)
    (hne : other ≠ side) (p : Pia) : (act.apply p).port other = p.port other := by
  rw [port_apply, Act.onPort?_of_addresses h hne]
  rfl

/-- Between two writes to the shared registers a port only sees what is addressed to it. -/
theorem port_after_filter (p : Pia) {acts : List Act} (side : Side)
    (h : ∀ act ∈ acts, act.isShared = false) :
    (p.after acts).port side = (p.after (acts.filter (Act.addresses side))).port side := by
  have hacts : acts.filterMap (Act.onPort? side) =
      (acts.filter (Act.addresses side)).filterMap (Act.onPort? side) := by
    rw [List.filterMap_filter]
    refine List.filterMap_congr fun act hact => ?_
    split
    · rfl
    · next haddress =>
      exact Act.onPort?_of_not_addresses (h act hact) (Bool.eq_false_iff.mpr haddress)
  rw [port_after, port_after, hacts]

/-! ### The automata -/

/-- The automaton of one port: the handshake, and the control register that gives its direction. -/
structure Automaton where
  control : UInt8
  handshake : Handshake
  deriving DecidableEq

namespace Automaton

/-- Nothing has happened. -/
def start : Automaton := ⟨0, ⟨0, false⟩⟩

/-- The automaton of a port after an act at the interface. -/
def step (side : Side) (s : Automaton) (act : Act) : Automaton where
  control := act.control?.getD s.control
  handshake := (act.onPort? side).elim s.handshake (s.handshake.next (bit s.control side.outBit))

/-- The byte that is obtained from the port. -/
def answer (side : Side) (s : Automaton) (act : Act) : Option UInt8 :=
  (act.onPort? side).bind (s.handshake.answer (bit s.control side.outBit))

end Automaton

/-- What the automaton of a port is like. -/
def automaton (p : Pia) (side : Side) : Automaton :=
  ⟨p.control, (p.port side).handshake⟩

theorem automaton_new (range : AddressRange) (source : SourceId) (side : Side) :
    (new range source).automaton side = .start := by
  have hcontrol : flag false outA ||| flag false outB ||| flag false irqA ||| flag false irqB = 0 :=
    by decide
  have hhandshake : ((new range source).port side).handshake = ⟨0, false⟩ := by cases side <;> rfl
  exact congr (congrArg Automaton.mk hcontrol) hhandshake

theorem automaton_apply (p : Pia) (act : Act) (side : Side) :
    (act.apply p).automaton side = (p.automaton side).step side act := by
  have hhandshake : ((act.apply p).port side).handshake = (act.onPort? side).elim
      (p.port side).handshake ((p.port side).handshake.next (bit p.control side.outBit)) := by
    rw [port_apply, bit_control_out]
    cases act.onPort? side with
    | none => rfl
    | some a => exact (p.port side).handshake_apply a
  exact congr (congrArg Automaton.mk (p.control_apply act)) hhandshake

theorem byte?_eq_answer (p : Pia) {act : Act} {side : Side} (h : act.onPort? side ≠ none) :
    act.byte? p = (p.automaton side).answer side act := by
  obtain ⟨a, ha⟩ := Option.ne_none_iff_exists'.mp h
  have hbyte : act.byte? p = (p.port side).handshake.answer (bit p.control side.outBit) a := by
    rw [byte?_of_onPort? p ha, Port.byte?_eq_answer, bit_control_out]
  unfold Automaton.answer
  rw [ha]
  exact hbyte

theorem automaton_after (p : Pia) (acts : List Act) (side : Side) :
    (p.after acts).automaton side = acts.foldl (Automaton.step side) (p.automaton side) := by
  induction acts generalizing p with
  | nil => rfl
  | cons act rest ih =>
    rw [List.foldl_cons, ← automaton_apply]
    exact ih (act.apply p)

/-- What happens at one port follows the automaton of that port, and does not affect the other. -/
structure IsTwoHandshakes (p : Pia) : Prop where
  control_lt : p.control < 16
  step (act : Act) (side : Side) : (act.apply p).automaton side = (p.automaton side).step side act
  answer {act : Act} {side : Side} : act.onPort? side ≠ none →
    act.byte? p = (p.automaton side).answer side act
  apart {act : Act} {side other : Side} : act.addresses side = true → other ≠ side →
    (act.apply p).port other = p.port other
  /-- While the shared registers are not written, the acts at the two ports may be interleaved in any
  way. -/
  interleaved {acts acts' : List Act} : (∀ act ∈ acts ++ acts', act.isShared = false) →
    (∀ side, acts.filter (Act.addresses side) = acts'.filter (Act.addresses side)) →
      ∀ side, (p.after acts).port side = (p.after acts').port side

theorem isTwoHandshakes (p : Pia) : p.IsTwoHandshakes where
  control_lt := p.control_lt
  step := p.automaton_apply
  answer := p.byte?_eq_answer
  apart h hne := port_apply_of_addresses h hne p
  interleaved hshared hsame side := by
    obtain ⟨hacts, hacts'⟩ := List.forall_mem_append.mp hshared
    rw [p.port_after_filter side hacts, p.port_after_filter side hacts', hsame]

/-- **Two handshakes.** Whatever has happened to an interface, each of its ports has gone through an
automaton of its own, and goes on doing so. -/
theorem two_handshakes (range : AddressRange) (source : SourceId) (acts : List Act) :
    let p := (new range source).after acts
    (∀ side, p.automaton side = acts.foldl (Automaton.step side) .start) ∧ p.IsTwoHandshakes := by
  intro p
  refine ⟨fun side => ?_, p.isTwoHandshakes⟩
  rw [← automaton_new range source side]
  exact automaton_after _ acts side

/-- The peripheral drives port A while the bus and the peripheral exchange a byte on port B. -/
theorem two_handshakes_at_once :
    let p := (new ⟨0xD010, 0xD013, by decide⟩ 1).after [.write 2 (outA ||| irqB)]
    let rest : List Act := [.write 1 0x42, .drive .a 0x4B, .read 3, .take .b, .write 0 0x11]
    let rest' : List Act := [.drive .a 0x4B, .write 0 0x11, .write 1 0x42, .take .b]
    (p.automaton .a).control = 0x09 ∧ Act.byte? (p.after [.write 1 0x42]) (.take .b) = some 0x42 ∧
      ((p.after rest).automaton .a).handshake = ⟨0x4B, true⟩ ∧
      ∀ side, (p.after rest).port side = (p.after rest').port side := by
  intro p rest rest'
  have h := fun acts => two_handshakes ⟨0xD010, 0xD013, by decide⟩ 1 (.write 2 (outA ||| irqB) :: acts)
  obtain ⟨hautomaton, htwo⟩ := h []
  refine ⟨(congrArg Automaton.control (hautomaton .a)).trans (by decide), ?_,
    (congrArg Automaton.handshake ((h rest).1 .a)).trans (by decide), ?_⟩
  · have htake : (Act.take .b).onPort? .b ≠ none := by decide
    exact ((h [.write 1 0x42]).2.answer htake).trans (by decide +kernel)
  · refine htwo.interleaved (by decide) fun side => ?_
    cases side <;> decide

end Pia

/-! ### On a bus -/

/-- What an act on a bus is to an interface that it reaches. -/
def BusAct.onPia? (range : AddressRange) : BusAct → Option Pia.Act
  | read address => some (.read (range.offset address))
  | write address value => some (.write (range.offset address) value)
  | drive _ side value => some (.drive side value)
  | take _ side => some (.take side)
  | clock | load .. => none

theorem Pia.range_apply (p : Pia) (act : Act) : (act.apply p).range = p.range := by
  cases act with
  | read offset => exact Device.range_read (.pia p) offset
  | write offset value => exact Device.range_write (.pia p) offset value
  | drive side value => exact Device.range_drive (.pia p) side value
  | take side => exact Device.range_afterTake (.pia p) side

theorem BusAct.change_pia (p : Pia) (a : BusAct) :
    a.change (.pia p) = .pia ((a.onPia? p.range).elim p (Pia.Act.apply p)) := by
  cases a <;> rfl

/-- **An interface on a bus** has a history of its own. -/
theorem Bus.evolve_pia (bus : Bus) (place : Nat) (acts : List BusAct) (p : Pia) :
    bus.evolve place acts (.pia p) =
      .pia (p.after ((acts.filter (BusAct.reaches bus place)).filterMap (BusAct.onPia? p.range))) := by
  refine evolve_eq_foldl (fun q => q.range = p.range) (fun q act hq => ?_)
    (fun q a hq => ?_) bus place acts rfl
  · rw [Pia.range_apply, hq]
  · rw [BusAct.change_pia, hq]

end Nmos6502
