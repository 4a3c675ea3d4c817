import Nmos6502.Proofs.Bus.History

/-!
# What a screen shows

The history of a screen tells what each of its registers holds (`Screen.held`), as a clock clears the
ready register, and which of its clocks have stored a pixel (`Screen.Commits`). A pixel has the
intensity of the clock that has stored it last and is dark if none has (`Screen.shows_after`), so what
is stored is what the registers hold at the clock, and neither what was written to them before nor how
often.

A screen on a bus goes through the acts on the bus that reach it (`Bus.evolve_screen`).
-/

namespace Nmos6502

namespace Screen

/-- What may happen to a screen. -/
inductive Act
  | read (offset : UInt16)
  | write (offset : UInt16) (value : UInt8)
  | clock
  deriving DecidableEq

/-- The screen afterwards. -/
def Act.apply (s : Screen) : Act → Screen
  | read _ => s
  | write offset value => s.write offset value
  | clock => s.clock

/-- The screen after some acts. -/
def after (s : Screen) (acts : List Act) : Screen :=
  acts.foldl Act.apply s

theorem after_append_singleton (s : Screen) (acts : List Act) (act : Act) :
    s.after (acts ++ [act]) = act.apply (s.after acts) := by
  unfold after
  rw [List.foldl_append, List.foldl_cons, List.foldl_nil]

/-! ### Registers -/

/-- The registers of a screen. -/
inductive Register
  | x
  | y
  | intensity
  | ready
  deriving DecidableEq

/-- Where a register is found. -/
def Register.offset : Register → UInt16
  | x => 0
  | y => 1
  | intensity => 2
  | ready => 3

/-- The value that a register holds. -/
def value (s : Screen) : Register → UInt8
  | .x => s.x
  | .y => s.y
  | .intensity => s.intensity
  | .ready => s.ready

/-- What an act stores in a register. A clock clears the ready register. -/
def Act.stores? (register : Register) : Act → Option UInt8
  | read _ => none
  | write offset value => if offset = register.offset then some value else none
  | clock => if register = .ready then some 0 else none

/-- What a register of a new screen holds after some acts: what was stored there last. -/
def held (acts : List Act) (register : Register) : UInt8 :=
  (acts.filterMap (Act.stores? register)).getLast?.getD 0

theorem held_append_singleton (acts : List Act) (act : Act) (register : Register) :
    held (acts ++ [act]) register = (act.stores? register).getD (held acts register) := by
  unfold held
  rw [List.filterMap_append, List.getLast?_append]
  cases h : act.stores? register <;> simp [h]

theorem read_offset (s : Screen) (register : Register) :
    s.read register.offset = s.value register := by
  cases register <;> rfl

/-- Nothing is read behind the registers. -/
theorem read_of_lt (s : Screen) {offset : UInt16} (h : 3 < offset) : s.read offset = 0 := by
  have hne : ∀ n : UInt16, n ≤ 3 → offset ≠ n := by
    rintro n hn rfl
    exact absurd h (UInt16.not_lt.mpr hn)
  unfold read
  rw [if_neg (hne 0 (by decide)), if_neg (hne 1 (by decide)), if_neg (hne 2 (by decide)),
    if_neg (hne 3 (by decide))]

theorem value_write (s : Screen) (offset : UInt16) (value : UInt8) (register : Register) :
    (s.write offset value).value register =
      if offset = register.offset then value else s.value register := by
  unfold write
  cases register <;> simp only [Register.offset] <;> split_ifs <;> simp_all [Screen.value]

/-- A clock leaves the ready register clear and the other registers as they are. -/
theorem value_clock (s : Screen) (register : Register) :
    s.clock.value register = if register = .ready then 0 else s.value register := by
  unfold clock
  split
  · cases register <;> rfl
  · next h =>
    have hready : s.ready = 0 := by simpa [isPending] using h
    cases register <;> simp [value, hready]

theorem value_apply (s : Screen) (act : Act) (register : Register) :
    (act.apply s).value register = (act.stores? register).getD (s.value register) := by
  cases act with
  | read offset => rfl
  | write offset value =>
    refine (s.value_write offset value register).trans ?_
    by_cases h : offset = register.offset <;> simp [Act.stores?, h]
  | clock =>
    refine (s.value_clock register).trans ?_
    by_cases h : register = .ready <;> simp [Act.stores?, h]

/-! ### Pixels -/

theorem isPending_iff (s : Screen) : s.isPending = true ↔ s.value .ready ≠ 0 := by
  simp [isPending, value]

theorem bitmap_write (s : Screen) (offset : UInt16) (value : UInt8) :
    (s.write offset value).bitmap = s.bitmap := by
  unfold write
  split_ifs <;> rfl

/-- Only a clock changes what a screen shows. -/
theorem bitmap_apply (s : Screen) {act : Act} (h : act ≠ .clock) :
    (act.apply s).bitmap = s.bitmap := by
  cases act with
  | read offset => rfl
  | write offset value => exact s.bitmap_write offset value
  | clock => exact absurd rfl h

theorem bitmap_after (s : Screen) {acts : List Act} (h : .clock ∉ acts) :
    (s.after acts).bitmap = s.bitmap := by
  induction acts generalizing s with
  | nil => rfl
  | cons act rest ih =>
    obtain ⟨hact, hrest⟩ := not_or.mp (mt List.mem_cons.mpr h)
    exact (ih (act.apply s) hrest).trans (s.bitmap_apply (Ne.symm hact))

theorem pixel_eq_of_bitmap_eq {s s' : Screen} (h : s.bitmap = s'.bitmap) (x y : UInt8) :
    s.pixel x y = s'.pixel x y := by
  unfold pixel
  rw [h]

/-- The clock at place `i` of a history stores the pixel at a column and a row. -/
structure Commits (acts : List Act) (i : Nat) (x y : UInt8) : Prop where
  clock : acts[i]? = some .clock
  ready : held (acts.take i) .ready ≠ 0
  x_eq : held (acts.take i) .x = x
  y_eq : held (acts.take i) .y = y

instance (acts : List Act) (i : Nat) (x y : UInt8) : Decidable (Commits acts i x y) :=
  decidable_of_iff (acts[i]? = some .clock ∧ held (acts.take i) .ready ≠ 0 ∧
      held (acts.take i) .x = x ∧ held (acts.take i) .y = y)
    ⟨fun ⟨hc, hr, hx, hy⟩ => ⟨hc, hr, hx, hy⟩, fun ⟨hc, hr, hx, hy⟩ => ⟨hc, hr, hx, hy⟩⟩

theorem Commits.lt_length {acts : List Act} {i : Nat} {x y : UInt8} (h : Commits acts i x y) :
    i < acts.length :=
  (List.getElem?_eq_some_iff.mp h.clock).1

/-- Whether a clock has stored a pixel does not depend on what happens later. -/
theorem commits_append_left {acts : List Act} {i : Nat} (h : i < acts.length) (others : List Act)
    (x y : UInt8) : Commits (acts ++ others) i x y ↔ Commits acts i x y := by
  have htake : (acts ++ others).take i = acts.take i :=
    List.take_append_of_le_length (Nat.le_of_lt h)
  have hget : (acts ++ others)[i]? = acts[i]? := List.getElem?_append_left h
  constructor
  · rintro ⟨hc, hr, hx, hy⟩
    rw [hget] at hc
    rw [htake] at hr hx hy
    exact ⟨hc, hr, hx, hy⟩
  · rintro ⟨hc, hr, hx, hy⟩
    rw [← hget] at hc
    rw [← htake] at hr hx hy
    exact ⟨hc, hr, hx, hy⟩

/-- The last act stores a pixel if it is a clock. -/
theorem commits_append_length (acts : List Act) (act : Act) (x y : UInt8) :
    Commits (acts ++ [act]) acts.length x y ↔
      act = .clock ∧ held acts .ready ≠ 0 ∧ held acts .x = x ∧ held acts .y = y := by
  have htake : (acts ++ [act]).take acts.length = acts := List.take_left
  have hget : (acts ++ [act])[acts.length]? = some act := by simp
  constructor
  · rintro ⟨hc, hr, hx, hy⟩
    rw [htake] at hr hx hy
    rw [hget] at hc
    exact ⟨Option.some.inj hc, hr, hx, hy⟩
  · rintro ⟨rfl, hr, hx, hy⟩
    rw [← htake] at hr hx hy
    exact ⟨hget, hr, hx, hy⟩

/-- The screen after some acts shows what their history tells. -/
structure Shows (s : Screen) (acts : List Act) : Prop where
  /-- The registers hold what has been stored there last, -/
  register (register : Register) : s.read register.offset = held acts register
  /-- and there is nothing behind them. -/
  elsewhere {offset : UInt16} : 3 < offset → s.read offset = 0
  /-- A pixel has the intensity of the clock that has stored it last, -/
  committed {i : Nat} {x y : UInt8} : Commits acts i x y →
    (∀ j < acts.length, i < j → ¬ Commits acts j x y) →
      s.pixel x y = held (acts.take i) .intensity
  /-- and is dark if none has. -/
  dark {x y : UInt8} : (∀ i < acts.length, ¬ Commits acts i x y) → s.pixel x y = 0

/-- An act changes the pixel that it stores, and no other. -/
theorem pixel_apply (s : Screen) (act : Act) (x y : UInt8) : (act.apply s).pixel x y =
    if act = .clock ∧ s.value .ready ≠ 0 ∧ s.value .x = x ∧ s.value .y = y then s.value .intensity
    else s.pixel x y := by
  by_cases hclock : act = .clock
  · subst hclock
    refine (s.pixel_clock x y).trans (if_congr ?_ rfl rfl)
    rw [isPending_iff, eq_comm (a := x), eq_comm (a := y)]
    exact ⟨fun h => ⟨rfl, h⟩, And.right⟩
  · rw [if_neg fun h => hclock h.1]
    exact pixel_eq_of_bitmap_eq (s.bitmap_apply hclock) x y

/-- **One act more**: the history tells what the screen shows after it, too. -/
theorem Shows.apply {s : Screen} {acts : List Act} (h : s.Shows acts) (act : Act) :
    (act.apply s).Shows (acts ++ [act]) := by
  have hvalue : ∀ register, s.value register = held acts register := fun register =>
    (s.read_offset register).symm.trans (h.register register)
  have hlength : (acts ++ [act]).length = acts.length + 1 := List.length_append
  have hcommits := commits_append_length acts act
  simp only [← hvalue] at hcommits
  have hstored : ∀ x y, Commits (acts ++ [act]) acts.length x y →
      (act.apply s).pixel x y = s.value .intensity := fun x y hc => by
    rw [pixel_apply, if_pos ((hcommits x y).mp hc)]
  have hkept : ∀ x y, ¬ Commits (acts ++ [act]) acts.length x y →
      (act.apply s).pixel x y = s.pixel x y := fun x y hc => by
    rw [pixel_apply, if_neg (mt (hcommits x y).mpr hc)]
  refine ⟨fun register => ?_, (act.apply s).read_of_lt, fun {i x y} hi hlast => ?_,
    fun {x y} hnone => ?_⟩
  · rw [read_offset, value_apply, held_append_singleton, hvalue]
  · rw [hlength] at hlast
    have hlt : i < acts.length + 1 := hlength ▸ hi.lt_length
    rcases Nat.lt_succ_iff_lt_or_eq.mp hlt with hlt | rfl
    · have htake : (acts ++ [act]).take i = acts.take i :=
        List.take_append_of_le_length (Nat.le_of_lt hlt)
      rw [hkept x y (hlast _ (Nat.lt_succ_self _) hlt), htake]
      refine h.committed ((commits_append_left hlt _ x y).mp hi) fun j hj hij hc => ?_
      exact hlast j (Nat.lt_succ_of_lt hj) hij ((commits_append_left hj _ x y).mpr hc)
    · rw [hstored x y hi, hvalue, List.take_left]
  · rw [hlength] at hnone
    rw [hkept x y (hnone _ (Nat.lt_succ_self _))]
    refine h.dark fun i hi hc => ?_
    exact hnone i (Nat.lt_succ_of_lt hi) ((commits_append_left hi _ x y).mpr hc)

/-- A new screen is dark, and its registers are clear. -/
theorem shows_new (range : AddressRange) : (new range).Shows [] where
  register register := by cases register <;> rfl
  elsewhere := (new range).read_of_lt
  committed h := absurd h.lt_length (Nat.not_lt_zero _)
  dark {x y} _ := Vector.getElem_replicate _

/-- **What a screen shows** is told by its history. -/
theorem shows_after (range : AddressRange) (acts : List Act) :
    ((new range).after acts).Shows acts := by
  induction acts using List.reverseRecOn with
  | nil => exact shows_new range
  | append_singleton acts act ih =>
    rw [after_append_singleton]
    exact ih.apply act

/-! ### Between two clocks -/

/-- How a screen takes requests, in whatever state it is. -/
structure TakesRequests (s : Screen) : Prop where
  /-- A clock clears the ready register and leaves the others as they are. -/
  clock (register : Register) : s.clock.read register.offset =
    if register = .ready then 0 else s.read register.offset
  /-- Until the ready register is written again, no further clock changes anything. -/
  clock_again {acts : List Act} : (∀ value, .write Register.ready.offset value ∉ acts) →
    (s.clock.after acts).clock = s.clock.after acts
  /-- Reads and writes change no pixel, and the clock behind them stores the one that the registers hold
  then, whatever they held before. -/
  bitmap {acts : List Act} : .clock ∉ acts → (s.after acts).bitmap = s.bitmap
  request {acts : List Act} (x y : UInt8) : .clock ∉ acts → (s.after acts).clock.pixel x y =
    if (s.after acts).read Register.ready.offset ≠ 0 ∧ (s.after acts).read Register.x.offset = x ∧
      (s.after acts).read Register.y.offset = y then (s.after acts).read Register.intensity.offset
    else s.pixel x y

theorem ready_after {s : Screen} (h : s.value .ready = 0) {acts : List Act}
    (hacts : ∀ value, .write Register.ready.offset value ∉ acts) :
    (s.after acts).value .ready = 0 := by
  induction acts generalizing s with
  | nil => exact h
  | cons act rest ih =>
    refine ih ?_ fun value hmem => hacts value (List.mem_cons_of_mem _ hmem)
    rw [value_apply]
    cases act with
    | read offset => exact h
    | write offset value =>
      have hne : offset ≠ Register.ready.offset := by
        rintro rfl
        exact hacts value List.mem_cons_self
      simpa [Act.stores?, hne] using h
    | clock => rfl

theorem takesRequests (s : Screen) : s.TakesRequests where
  clock register := by
    rw [read_offset, read_offset, value_clock]
  clock_again {acts} hacts := by
    have hready := ready_after (s.value_clock .ready) hacts
    unfold clock
    rw [if_neg]
    rw [isPending_iff]
    exact not_not.mpr hready
  bitmap := s.bitmap_after
  request {acts} x y hacts := by
    have happly := (s.after acts).pixel_apply .clock x y
    rw [pixel_eq_of_bitmap_eq (s.bitmap_after hacts) x y] at happly
    refine happly.trans (if_congr ?_ (read_offset _ .intensity).symm rfl)
    simp only [read_offset, true_and]

end Screen

/-! ### On a bus -/

/-- What an act on a bus is to a screen that it reaches. -/
def BusAct.onScreen? (range : AddressRange) : BusAct → Option Screen.Act
  | read address => some (.read (range.offset address))
  | write address value => some (.write (range.offset address) value)
  | clock => some .clock
  | load .. | drive .. | take .. => none

theorem Screen.range_apply (s : Screen) (act : Act) : (act.apply s).range = s.range := by
  cases act with
  | read offset => rfl
  | write offset value => exact Device.range_write (.screen s) offset value
  | clock => exact Device.range_clock (.screen s)

/-- The acts on a bus that are acts on the screen at a place. -/
def Bus.screenActs (bus : Bus) (place : Nat) (range : AddressRange) (acts : List BusAct) :
    List Screen.Act :=
  (acts.filter (BusAct.reaches bus place)).filterMap (BusAct.onScreen? range)

/-- **A screen on a bus** has a history of its own. -/
theorem Bus.evolve_screen (bus : Bus) (place : Nat) (acts : List BusAct) (s : Screen) :
    bus.evolve place acts (.screen s) =
      .screen (s.after (bus.screenActs place s.range acts)) := by
  refine evolve_eq_foldl (fun t => t.range = s.range) (fun t act ht => ?_)
    (fun t a ht => ?_) bus place acts rfl
  · rw [Screen.range_apply, ht]
  · rw [← ht]
    cases a <;> rfl

namespace Screen

/-- **A screen stores exactly the pixels that are requested.** Whatever has happened to it, its registers
and its pixels are what its history tells, and it goes on taking requests. So it is on a bus, where the
clock of the bus is its own. Each pixel has a place in the bitmap to itself. -/
theorem stores_requested_pixels (range : AddressRange) :
    (∀ acts, ((new range).after acts).Shows acts ∧ ((new range).after acts).TakesRequests) ∧
    (∀ (bus : Bus) (place : Nat) (acts : List BusAct),
      bus.device? place = some (.screen (new range)) →
        ∃ s, (bus.after acts).device? place = some (.screen s) ∧
          s.Shows (bus.screenActs place range acts) ∧ s.TakesRequests) ∧
    ∀ x y x' y' : UInt8, index x y = y.toNat * 256 + x.toNat ∧ index x y < 65536 ∧
      (index x y = index x' y' ↔ x = x' ∧ y = y') := by
  refine ⟨fun acts => ⟨shows_after range acts, takesRequests _⟩, fun bus place acts hd => ?_,
    fun x y x' y' => ⟨rfl, index_lt x y, index_inj⟩⟩
  refine ⟨_, ?_, shows_after range _, takesRequests _⟩
  rw [Bus.device?_after, hd, Option.map_some, Bus.evolve_screen]
  rfl

/-- Three clocks: the second one finds nothing requested, and of the two columns that are requested
before the third one the later one counts. -/
theorem stores_requested_pixels_twice :
    let range : AddressRange := ⟨0xD000, 0xD003, by decide⟩
    let bus : Bus := ⟨#[.screen (new range)], .new⟩
    let acts : List BusAct := [.write 0xD000 255, .write 0xD001 254, .write 0xD002 0x33,
      .write 0xD003 1, .clock, .write 0xD002 0x44, .read 0xD003, .clock, .write 0xD000 1,
      .write 0xD003 7, .write 0xD000 2, .clock]
    ∃ s, (bus.after acts).device? 0 = some (.screen s) ∧ s.pixel 255 254 = 0x33 ∧
      s.pixel 1 254 = 0 ∧ s.pixel 2 254 = 0x44 ∧ s.read 3 = 0 := by
  intro range bus acts
  obtain ⟨s, hs, hshows, -⟩ := (stores_requested_pixels range).2.1 bus 0 acts rfl
  have hacts : bus.screenActs 0 range acts = [.write 0 255, .write 1 254, .write 2 0x33, .write 3 1,
      .clock, .write 2 0x44, .read 3, .clock, .write 0 1, .write 3 7, .write 0 2, .clock] := by
    decide +kernel
  rw [hacts] at hshows
  refine ⟨s, hs, ?_, ?_, ?_, ?_⟩
  · exact hshows.committed (i := 4) (by decide) (by decide)
  · exact hshows.dark (by decide)
  · exact hshows.committed (i := 11) (by decide) (by decide)
  · exact hshows.register .ready

end Screen

end Nmos6502
