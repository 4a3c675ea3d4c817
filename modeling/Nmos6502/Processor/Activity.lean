import Nmos6502.Bus

/-!
# Activities

What the processor does on the bus, one access after the other, until it has a value. An access may
depend on what was read before. An activity says nothing of what the bus holds; running it on a bus
gives the value, the bus after it, and a journal of all accesses and events in their order. One
activity after another is run one after the other (`run_bind`).
-/

namespace Nmos6502

/-- Accesses to the bus, up to a value. -/
inductive Activity (α : Type) where
  | done (value : α)
  | read (address : UInt16) (next : UInt8 → Activity α)
  | write (address : UInt16) (value : UInt8) (next : Activity α)
  | note (event : Event) (next : Activity α)

/-- Something that happened during an activity. -/
inductive Entry
  /-- The bus was read and a byte found. -/
  | read (address : UInt16) (value : UInt8)
  | write (address : UInt16) (value : UInt8)
  | event (e : Event)
  deriving DecidableEq

/-- An activity that has been run: its value, the bus after it, and what happened. -/
structure Ran (α : Type) where
  value : α
  bus : Bus
  journal : List Entry

namespace Entry

/-- The events of a journal. -/
def events (journal : List Entry) : List Event :=
  journal.filterMap fun
    | event e => some e
    | read .. | write .. => none

/-- The accesses of a journal. -/
def accesses (journal : List Entry) : List Entry :=
  journal.filter fun
    | event _ => false
    | read .. | write .. => true

end Entry

namespace Activity

/-- An activity followed by another that may depend on its value. -/
def bind {α β : Type} : Activity α → (α → Activity β) → Activity β
  | done value, f => f value
  | read address next, f => read address fun value => (next value).bind f
  | write address value next, f => write address value (next.bind f)
  | note event next, f => note event (next.bind f)

instance : Monad Activity where
  pure := done
  bind := bind

theorem bind_done {α : Type} (activity : Activity α) : activity.bind done = activity := by
  induction activity with
  | done value => rfl
  | read address next ih => simp only [bind, ih]
  | write address value next ih => rw [bind, ih]
  | note event next ih => rw [bind, ih]

theorem bind_assoc {α β γ : Type} (activity : Activity α) (f : α → Activity β)
    (g : β → Activity γ) : (activity.bind f).bind g = activity.bind fun value => (f value).bind g := by
  induction activity with
  | done value => rfl
  | read address next ih => simp only [bind, ih]
  | write address value next ih => rw [bind, bind, bind, ih]
  | note event next ih => rw [bind, bind, bind, ih]

instance : LawfulMonad Activity :=
  LawfulMonad.mk' Activity bind_done (fun _ _ => rfl) bind_assoc

/-- The activity that reads one byte. -/
def readByte (address : UInt16) : Activity UInt8 :=
  read address done

/-- The activity that reads a word, low byte first. -/
def readWord (address : UInt16) : Activity UInt16 :=
  read address fun low => read (address + 1) fun high => done (word low high)

/-- The activity that writes one byte. -/
def writeByte (address : UInt16) (value : UInt8) : Activity Unit :=
  write address value (done ())

/-- The activity that only reports an event. -/
def report (event : Event) : Activity Unit :=
  note event (done ())

/-- What an activity does on a bus. -/
def run {α : Type} : Activity α → Bus → Ran α
  | done value, bus => ⟨value, bus, []⟩
  | read address next, bus =>
    let (value, bus) := bus.read address
    let rest := (next value).run bus
    { rest with journal := .read address value :: rest.journal }
  | write address value next, bus =>
    let events := bus.writeEvents address value
    let rest := next.run (bus.write address value)
    { rest with journal := .write address value :: (events.map .event ++ rest.journal) }
  | note event next, bus =>
    let rest := next.run bus
    { rest with journal := .event event :: rest.journal }

/-- Running one activity after another. -/
theorem run_bind {α β : Type} (activity : Activity α) (f : α → Activity β) (bus : Bus) :
    (activity >>= f).run bus =
      { (f (activity.run bus).value).run (activity.run bus).bus with
        journal := (activity.run bus).journal ++
          ((f (activity.run bus).value).run (activity.run bus).bus).journal } := by
  change (activity.bind f).run bus = _
  induction activity generalizing bus with
  | done value => rfl
  | read address next ih => simp only [bind, run, ih, List.cons_append]
  | write address value next ih =>
    simp only [bind, run, ih, List.cons_append, List.append_assoc]
  | note event next ih => simp only [bind, run, ih, List.cons_append]

@[simp] theorem run_pure {α : Type} (value : α) (bus : Bus) :
    (pure value : Activity α).run bus = ⟨value, bus, []⟩ := rfl

@[simp] theorem run_readByte (address : UInt16) (bus : Bus) :
    (readByte address).run bus =
      ⟨bus.peek address, bus.afterRead address, [.read address (bus.peek address)]⟩ := rfl

@[simp] theorem run_writeByte (address : UInt16) (value : UInt8) (bus : Bus) :
    (writeByte address value).run bus =
      ⟨(), bus.write address value,
        .write address value :: (bus.writeEvents address value).map .event⟩ := by
  simp [writeByte, run]

@[simp] theorem run_report (event : Event) (bus : Bus) :
    (report event).run bus = ⟨(), bus, [.event event]⟩ := rfl

/-- A word is read as two bytes, the second of them on the bus as the first read leaves it. -/
theorem readWord_eq (address : UInt16) :
    readWord address = (do
      let low ← readByte address
      let high ← readByte (address + 1)
      return word low high) := rfl

end Activity

end Nmos6502
