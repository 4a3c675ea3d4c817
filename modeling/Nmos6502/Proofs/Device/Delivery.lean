import Nmos6502.Proofs.Device.Handshake

/-!
# What a port delivers

A byte that waits in a port has been stored by the bus or by the peripheral. Who it was can be told
from the history of the port (`Port.Account`), for the direction decides who can store: the bus writes
an input, and the peripheral drives an output. The history tells what the port holds
(`Port.Account.Matches.after`), so that whatever is delivered has been stored last and has waited since
(`Pia.delivery`).

The direction may be changed while a byte waits, and the byte goes on waiting. Then the peripheral
takes back what it has driven itself, and the bus reads what it has written itself from a port that it
does not drive (`Pia.phantom_after_turning`). A program that only turns a port while nothing waits
there is safe from that (`Port.Account.Rightful.after`).
-/

namespace Nmos6502

namespace Port

/-- Who stores bytes in a port. -/
inductive Party
  | bus
  | peripheral
  deriving DecidableEq

/-- Who can store in a port of some direction. -/
def Party.ofDirection (isOutput : Bool) : Party :=
  if isOutput then .peripheral else .bus

namespace Act

/-- The byte that an act stores in a port of some direction, and who it is. -/
def stores? (isOutput : Bool) : Act → Option (Party × UInt8)
  | write value => if isOutput then none else some (.bus, value)
  | drive value => if isOutput then some (.peripheral, value) else none
  | read | mark _ | configure .. | take => none

/-- An act collects what waits in a port of some direction. -/
def collects (isOutput : Bool) : Act → Bool
  | read | take => !isOutput
  | write _ | mark _ | configure .. | drive _ => false

/-- The direction that an act gives to a port. -/
def direction? : Act → Option Bool
  | configure isOutput _ => some isOutput
  | read | write _ | mark _ | drive _ | take => none

theorem party_of_stores? {a : Act} {isOutput : Bool} {stored : Party × UInt8}
    (h : a.stores? isOutput = some stored) :
    stored.1 = .ofDirection (a.direction?.getD isOutput) := by
  cases a <;> cases isOutput <;> cases h <;> rfl

end Act

/-- What the history of a port tells. -/
structure Account where
  isOutput : Bool
  /-- The byte that was stored last, and by whom. -/
  stored? : Option (Party × UInt8)
  /-- It has not been collected since. -/
  waits : Bool
  /-- The byte that the peripheral has driven last. -/
  driven? : Option UInt8

theorem isOutput_apply (p : Port) (a : Act) :
    (a.apply p).isOutput = a.direction?.getD p.isOutput := by
  rcases p with ⟨data, ready, isOutput, interrupts⟩
  cases a <;> cases isOutput <;> cases ready <;> rfl

theorem data_apply (p : Port) (a : Act) :
    (a.apply p).data = ((a.stores? p.isOutput).map Prod.snd).getD p.data := by
  rcases p with ⟨data, ready, isOutput, interrupts⟩
  cases a <;> cases isOutput <;> cases ready <;> rfl

theorem ready_apply (p : Port) {a : Act} (ha : ∀ ready, a ≠ .mark ready) :
    (a.apply p).ready =
      ((a.stores? p.isOutput).isSome || (p.ready && !a.collects p.isOutput)) := by
  rcases p with ⟨data, ready, isOutput, interrupts⟩
  cases a with
  | mark value => exact absurd rfl (ha value)
  | _ => cases isOutput <;> cases ready <;> rfl

theorem take_eq_some_iff {p : Port} {value : UInt8} :
    p.take.1 = some value ↔ p.isOutput = false ∧ p.ready = true ∧ p.data = value := by
  rcases p with ⟨data, ready, isOutput, interrupts⟩
  cases isOutput <;> cases ready <;> simp [take, isWaiting]

namespace Account

/-- Nothing has happened. -/
def start : Account := ⟨false, none, false, none⟩

/-- What the history tells when it has gone on. -/
def next (s : Account) (a : Act) : Account where
  isOutput := a.direction?.getD s.isOutput
  stored? := (a.stores? s.isOutput).or s.stored?
  waits := (a.stores? s.isOutput).isSome || (s.waits && !a.collects s.isOutput)
  driven? :=
    match a.stores? s.isOutput with
    | some (.peripheral, value) => some value
    | some (.bus, _) | none => s.driven?

/-- What the history tells after some more acts. -/
def after (s : Account) (acts : List Act) : Account :=
  acts.foldl next s

/-- The history tells what is in the port. -/
structure Matches (s : Account) (p : Port) : Prop where
  isOutput : s.isOutput = p.isOutput
  waits : s.waits = p.ready
  stored : s.waits = true → ∃ party, s.stored? = some (party, p.data)
  driven {value : UInt8} : s.stored? = some (.peripheral, value) → s.driven? = some value

theorem matches_new : start.Matches new where
  isOutput := rfl
  waits := rfl
  stored hwaits := absurd hwaits Bool.false_ne_true
  driven hstored := absurd hstored.symm (Option.some_ne_none _)

theorem Matches.next {s : Account} {p : Port} (h : s.Matches p) {a : Act}
    (ha : ∀ ready, a ≠ .mark ready) : (s.next a).Matches (a.apply p) where
  isOutput := by
    rw [isOutput_apply, ← h.isOutput]
    rfl
  waits := by
    rw [p.ready_apply ha, ← h.isOutput, ← h.waits]
    rfl
  stored hwaits := by
    rw [data_apply, ← h.isOutput]
    unfold Account.next at hwaits ⊢
    cases hstores : a.stores? s.isOutput with
    | some stored =>
      exact ⟨stored.1, rfl⟩
    | none =>
      rw [hstores] at hwaits
      exact h.stored (Bool.and_eq_true_iff.mp hwaits).1
  driven hdriven := by
    unfold Account.next at hdriven ⊢
    cases hstores : a.stores? s.isOutput with
    | some stored =>
      rw [hstores] at hdriven
      obtain rfl : stored = (.peripheral, _) := Option.some.inj hdriven
      rfl
    | none =>
      rw [hstores] at hdriven
      exact h.driven hdriven

/-- **The history of a port tells what is in it**, unless its ready flag has been set by hand. -/
theorem Matches.after {s : Account} {p : Port} (h : s.Matches p) {acts : List Act}
    (hmarks : ∀ ready, .mark ready ∉ acts) : (s.after acts).Matches (acts.foldl Act.apply p) := by
  induction acts generalizing s p with
  | nil => exact h
  | cons a rest ih =>
    refine ih (h.next fun ready ha => hmarks ready ?_) fun ready hmem => hmarks ready ?_
    · exact ha ▸ List.mem_cons_self
    · exact List.mem_cons_of_mem a hmem

/-- **What is taken** waits in an input. -/
theorem Matches.take_eq_some_iff {s : Account} {p : Port} (h : s.Matches p) {value : UInt8} :
    p.take.1 = some value ↔
      s.isOutput = false ∧ s.waits = true ∧ ∃ party, s.stored? = some (party, value) := by
  rw [Port.take_eq_some_iff, ← h.isOutput, ← h.waits]
  refine and_congr_right fun _ => and_congr_right fun hwaits => ?_
  obtain ⟨party, hstored⟩ := h.stored hwaits
  rw [hstored]
  simp

/-- The direction is only changed while nothing waits. -/
def TurnsEmpty (s : Account) : List Act → Prop
  | [] => True
  | a :: rest =>
    (s.waits = true → (s.next a).isOutput = s.isOutput) ∧ (s.next a).TurnsEmpty rest

instance decidableTurnsEmpty (s : Account) (acts : List Act) : Decidable (s.TurnsEmpty acts) :=
  match acts with
  | [] => inferInstanceAs (Decidable True)
  | a :: rest =>
    have := decidableTurnsEmpty (s.next a) rest
    inferInstanceAs (Decidable (_ ∧ _))

/-- What waits was stored by the party that the direction allows. -/
def Rightful (s : Account) : Prop :=
  s.waits = true → ∃ value, s.stored? = some (.ofDirection s.isOutput, value)

theorem Rightful.stored_eq {s : Account} (h : s.Rightful) {party : Party} {value : UInt8}
    (hwaits : s.waits = true) (hstored : s.stored? = some (party, value)) :
    s.stored? = some (.ofDirection s.isOutput, value) := by
  obtain ⟨value', hrightful⟩ := h hwaits
  obtain ⟨rfl, -⟩ := Prod.mk.inj (Option.some.inj (hstored.symm.trans hrightful))
  exact hstored

theorem rightful_start : start.Rightful :=
  fun hwaits => absurd hwaits Bool.false_ne_true

theorem Rightful.next {s : Account} (h : s.Rightful) {a : Act}
    (hturn : s.waits = true → (s.next a).isOutput = s.isOutput) : (s.next a).Rightful := by
  intro hwaits
  cases hstores : a.stores? s.isOutput with
  | some stored =>
    refine ⟨stored.2, ?_⟩
    change (a.stores? s.isOutput).or s.stored? = _
    rw [hstores, Option.some_or]
    exact congrArg some (Prod.ext (Act.party_of_stores? hstores) rfl)
  | none =>
    change ((a.stores? s.isOutput).isSome || _) = true at hwaits
    rw [hstores] at hwaits
    have hbefore := (Bool.and_eq_true_iff.mp hwaits).1
    rw [hturn hbefore]
    change ∃ value, (a.stores? s.isOutput).or s.stored? = _
    rw [hstores, Option.none_or]
    exact h hbefore

/-- **What waits stays rightful** if the port is only turned while nothing waits. -/
theorem Rightful.after {s : Account} (h : s.Rightful) {acts : List Act}
    (hturns : s.TurnsEmpty acts) : (s.after acts).Rightful := by
  induction acts generalizing s with
  | nil => exact h
  | cons a rest ih =>
    obtain ⟨hturn, hrest⟩ := hturns
    exact ih (h.next hturn) hrest

end Account

end Port

namespace Pia

/-- The status register is written, and so the ready flags are set by hand. -/
def Act.writesStatus : Act → Bool
  | write offset _ => offset == Register.status.offset
  | read _ | drive .. | take _ => false

theorem Act.writesStatus_of_onPort? {act : Act} {side : Side} {ready : Bool}
    (h : act.onPort? side = some (.mark ready)) : act.writesStatus = true := by
  cases act with
  | write offset value =>
    unfold onPort? at h
    dsimp only at h
    split_ifs at h with _ _ hstatus
    · cases h
    · cases h
    · exact beq_iff_eq.mpr hstatus
  | _ =>
    unfold onPort? at h
    dsimp only at h
    split_ifs at h
    cases h

/-- No phantom data: the peripheral only takes what the bus stored last and what has waited since, and
the bus only reads from a ready output what the peripheral drove last. -/
structure NoPhantom (p : Pia) (side : Side) (s : Port.Account) : Prop where
  taken {value : UInt8} : (p.take side).1 = some value →
    s.waits = true ∧ s.stored? = some (.bus, value)
  shown : bit p.control side.outBit = true → (p.port side).ready = true →
    s.driven? = some (p.read side.register.offset).1

/-- What the history of the interface tells of a port. -/
def account (acts : List Act) (side : Side) : Port.Account :=
  Port.Account.start.after (acts.filterMap (Act.onPort? side))

/-- The history of a new interface tells what is in its ports, unless a ready flag has been set by
hand. -/
theorem matches_account (range : AddressRange) (source : SourceId) {acts : List Act} (side : Side)
    (h : ∀ act ∈ acts, act.writesStatus = false) :
    (account acts side).Matches (((new range source).after acts).port side) := by
  have hnew : (new range source).port side = .new := by cases side <;> rfl
  rw [port_after, hnew]
  refine Port.Account.matches_new.after fun ready hmem => ?_
  obtain ⟨act, hact, hmark⟩ := List.mem_filterMap.mp hmem
  exact Bool.false_ne_true ((h act hact).symm.trans (Act.writesStatus_of_onPort? hmark))

theorem value_take (p : Pia) (side : Side) : (p.take side).1 = (p.port side).take.1 := by
  cases side <;> rfl

theorem value_read (p : Pia) (side : Side) :
    (p.read side.register.offset).1 = (p.port side).data := by
  cases side <;> rfl

/-- **Delivery.** Unless a ready flag has been set by hand, what is taken from an input, or read from
an output that is ready, is the byte that was stored last and that has waited since. It is no phantom
if the port has only been turned while nothing waited. -/
theorem delivery (range : AddressRange) (source : SourceId) {acts : List Act} (side : Side)
    (h : ∀ act ∈ acts, act.writesStatus = false) :
    let p := (new range source).after acts
    let s := account acts side
    (∀ value, (p.take side).1 = some value ↔
        s.isOutput = false ∧ s.waits = true ∧ ∃ party, s.stored? = some (party, value)) ∧
      (bit p.control side.outBit = true → (p.port side).ready = true →
        ∃ party, s.stored? = some (party, (p.read side.register.offset).1)) ∧
      (Port.Account.start.TurnsEmpty (acts.filterMap (Act.onPort? side)) → p.NoPhantom side s) := by
  intro p s
  have hmatches : s.Matches (p.port side) := matches_account range source side h
  have htaken (value : UInt8) : (p.take side).1 = some value ↔
      s.isOutput = false ∧ s.waits = true ∧ ∃ party, s.stored? = some (party, value) := by
    rw [value_take]
    exact hmatches.take_eq_some_iff
  have hshown (hready : (p.port side).ready = true) :
      ∃ party, s.stored? = some (party, (p.read side.register.offset).1) := by
    rw [value_read]
    exact hmatches.stored (hmatches.waits.trans hready)
  refine ⟨htaken, fun _ => hshown, fun hturns => ?_⟩
  have hrightful : s.Rightful := Port.Account.rightful_start.after hturns
  constructor
  · intro value hvalue
    obtain ⟨hinput, hwaits, party, hstored⟩ := (htaken value).mp hvalue
    have hbus := hrightful.stored_eq hwaits hstored
    rw [hinput] at hbus
    exact ⟨hwaits, hbus⟩
  · intro hout hready
    obtain ⟨party, hstored⟩ := hshown hready
    have hperipheral := hrightful.stored_eq (hmatches.waits.trans hready) hstored
    rw [hmatches.isOutput, ← bit_control_out, hout] at hperipheral
    exact hmatches.driven hperipheral

/-- A port is turned while nothing waits there. The bus reads what the peripheral has driven, and the
peripheral takes what the bus has written. -/
theorem delivery_after_turning_empty :
    let p := (new ⟨0xD010, 0xD013, by decide⟩ 1).after
      [.write 0 0x11, .take .a, .write 2 outA, .drive .a 0x5A, .write 1 0x42]
    (p.read 0).1 = 0x5A ∧ (p.take .b).1 = some 0x42 := by
  intro p
  have h := fun side => @delivery ⟨0xD010, 0xD013, by decide⟩ 1
    [.write 0 0x11, .take .a, .write 2 outA, .drive .a 0x5A, .write 1 0x42] side (by decide)
  obtain ⟨-, -, ha⟩ := h .a
  obtain ⟨hb, -⟩ := h .b
  refine ⟨Option.some.inj ?_, (hb 0x42).mpr ⟨by decide, by decide, .bus, by decide⟩⟩
  exact ((ha (by decide)).shown (by decide) (by decide)).symm.trans (by decide)

/-- **Phantom data.** The direction of port A is changed while a byte waits. In one history the
peripheral drives a byte and then takes it back, though the bus has never written to the port; in the
other the bus reads its own byte from a ready output, though the peripheral has never driven it. -/
theorem phantom_after_turning :
    let p := new ⟨0xD010, 0xD013, by decide⟩ 1
    let driven : List Act := [.write 2 outA, .drive .a 0x5A, .write 2 0]
    let written : List Act := [.write 0 0x42, .write 2 outA]
    (∀ act ∈ driven ++ written, act.writesStatus = false) ∧
      ¬ (p.after driven).NoPhantom .a (account driven .a) ∧
      ((p.after driven).take .a).1 = some 0x5A ∧ (∀ value, .write 0 value ∉ driven) ∧
      ¬ (p.after written).NoPhantom .a (account written .a) ∧
      ((p.after written).read 0).1 = 0x42 ∧ ∀ value, .drive .a value ∉ written := by
  intro p driven written
  have htaken : ((p.after driven).take .a).1 = some 0x5A := by decide
  refine ⟨by decide, fun h => ?_, htaken, by simp [driven], fun h => ?_, by decide,
    by simp [written]⟩
  · have hstored := (h.taken htaken).2
    revert hstored
    decide
  · have hdriven := h.shown (by decide) (by decide)
    revert hdriven
    decide

end Pia

end Nmos6502
