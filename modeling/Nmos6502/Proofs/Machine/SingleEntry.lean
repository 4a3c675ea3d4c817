import Nmos6502.Proofs.Machine.Boundary

/-!
# One entry for each assertion

Between two entries into the non-maskable interrupt its line has been released
(`Machine.exists_released_between`), if only for the moment in which the processor withdraws its own
request. So there is at most one entry while the line stays raised, and at all other instruction
boundaries of that time the processor goes on (`Machine.goesOn_while_raised`). The line stays raised
while its sources take turns in holding it, whatever the others do.
-/

namespace Nmos6502

namespace Machine

/-! ### The line as its sources leave it -/

theorem nmi_updateIrq (m : Machine) (f : InterruptLine → InterruptLine) :
    (m.updateIrq f).nmi = m.nmi := by
  unfold updateIrq
  cases m.ownIrq <;> rfl

/-- Whatever happens to a machine, its non-maskable interrupt line stays or a source acts on it. -/
theorem nmi_apply (m : Machine) (a : Act) :
    (a.apply m).nmi = m.nmi ∨ ∃ act : LineAct, (a.apply m).nmi = act.apply m.nmi := by
  have htick : m.tick.machine.nmi = m.nmi ∨
      ∃ act : LineAct, m.tick.machine.nmi = act.apply m.nmi := by
    obtain ⟨-, -, hsame | hset⟩ := m.lines_tick
    · exact Or.inl hsame
    · exact Or.inr ⟨.set InterruptLine.owner false, hset⟩
  cases a with
  | tick => exact htick
  | step =>
    obtain ⟨-, -, hstep⟩ := m.lines_step
    rw [← hstep] at htick
    exact htick
  | reset => exact Or.inl rfl
  | setRegisters registers => exact Or.inl rfl
  | setNmi asserted => exact Or.inr ⟨.set InterruptLine.owner asserted, rfl⟩
  | setIrq asserted => exact Or.inl (m.nmi_updateIrq _)
  | line i act =>
    cases i with
    | nmi => exact Or.inr ⟨act, rfl⟩
    | irq => exact Or.inl (m.nmi_updateIrq _)
  | bus change => exact Or.inl rfl

theorem counts_nmi_after {m : Machine} (h : m.nmi.Counts) (acts : List Act) :
    (m.after acts).nmi.Counts := by
  induction acts using List.reverseRecOn with
  | nil => exact h
  | append_singleton acts a ih =>
    rw [after_append_singleton]
    obtain hsame | ⟨act, hact⟩ := (m.after acts).nmi_apply a
    · rw [hsame]
      exact ih
    · rw [hact]
      exact ih.apply act

/-! ### Entries and releases -/

theorem happens_take {what : Machine → Act → Prop} {m : Machine} {acts : List Act} {i j : Nat} :
    Happens what m (acts.take j) i ↔ i < j ∧ Happens what m acts i := by
  unfold Happens
  by_cases h : i < j
  · have hmin : min i j = i := Nat.min_eq_left (Nat.le_of_lt h)
    rw [List.getElem?_take, if_pos h, List.take_take, hmin]
    simp only [h, true_and]
  · rw [List.getElem?_take, if_neg h]
    simp [h]

/-- **Between two entries the line is released** at some moment. -/
theorem exists_released_between {m : Machine} (h : m.nmiAnswered = false) {acts : List Act}
    {i j : Nat} (hlt : i < j) (hi : Happens Act.EntersNmi m acts i)
    (hj : Happens Act.EntersNmi m acts j) :
    ∃ k, i < k ∧ k < j ∧ (m.after (acts.take k)).nmi.isRaised = false := by
  obtain ⟨a, -, -, henter⟩ := hj
  -- The second entry finds an assertion unanswered, so that a release has been noticed since the first.
  obtain ⟨-, -, hanswered⟩ := entersNmi_iff.mp henter
  obtain ⟨k, hik, hk⟩ := (nmiAnswered_after h _).mp hanswered i (happens_take.mpr ⟨hlt, hi⟩)
  obtain ⟨hkj, -, -, hreleased, -⟩ := happens_take.mp hk
  exact ⟨k, hik, hkj, hreleased⟩

/-- The processor begins something: there is a tick or a step at an instruction boundary. -/
def Act.Begins (m : Machine) (a : Act) : Prop :=
  (a = tick ∨ a = step) ∧ m.cycles = 0

/-- **While the line stays raised** the processor goes on at all instruction boundaries but one. -/
theorem goesOn_while_raised {m : Machine} (h : m.nmiAnswered = false) {acts : List Act}
    {first last : Nat}
    (hraised : ∀ k, first ≤ k → k ≤ last → (m.after (acts.take k)).nmi.isRaised = true) :
    ∃ e, ∀ j, first ≤ j → j ≤ last → j ≠ e → Happens Act.Begins m acts j →
      ¬ Happens Act.EntersNmi m acts j ∧ (m.after (acts.take j)).GoesOn := by
  have hunique : ∀ i j, first ≤ i → j ≤ last → i < j → Happens Act.EntersNmi m acts i →
      ¬ Happens Act.EntersNmi m acts j := by
    intro i j hi hj hlt henter henter'
    obtain ⟨k, hik, hkj, hreleased⟩ := exists_released_between h hlt henter henter'
    rw [hraised k (by omega) (by omega)] at hreleased
    cases hreleased
  have hone : ∃ e, ∀ j, first ≤ j → j ≤ last → j ≠ e → ¬ Happens Act.EntersNmi m acts j := by
    by_cases hnone : ∃ e, first ≤ e ∧ e ≤ last ∧ Happens Act.EntersNmi m acts e
    · obtain ⟨e, hfirst, hlast, henter⟩ := hnone
      refine ⟨e, fun j hj hj' hne henter' => ?_⟩
      rcases Nat.lt_or_gt_of_ne hne with hlt | hgt
      · exact hunique j e hj hlast hlt henter' henter
      · exact hunique e j hfirst hj' hgt henter henter'
    · exact ⟨0, fun j hj hj' _ henter => hnone ⟨j, hj, hj', henter⟩⟩
  obtain ⟨e, he⟩ := hone
  refine ⟨e, fun j hj hj' hne hbegins => ?_⟩
  have hno := he j hj hj' hne
  obtain ⟨a, ha, hor, hz⟩ := hbegins
  exact ⟨hno, goesOn_of_not_entersNmi hz fun henter => hno ⟨a, ha, hor, henter⟩⟩

/-! ### Sources that hold the line -/

/-- From one moment of a history to another, some source asserts the non-maskable interrupt line, and
there are not more than the line can count. -/
def HoldNmi (m : Machine) (acts : List Act) (first last : Nat) : Prop :=
  ∀ k, first ≤ k → k ≤ last →
    (m.after (acts.take k)).nmi.assertions < UInt32.size ∧
      ∃ source, (m.after (acts.take k)).nmi.isAsserting source = true

/-- In a history each assertion of the non-maskable interrupt line is answered at most once. -/
structure AnswersOnce (m : Machine) (acts : List Act) : Prop where
  released_between {i j : Nat} : i < j → Happens Act.EntersNmi m acts i →
    Happens Act.EntersNmi m acts j →
      ∃ k, i < k ∧ k < j ∧ (m.after (acts.take k)).nmi.isRaised = false
  /-- While sources hold the line there is one entry at most, and the processor goes on at all other
  instruction boundaries. -/
  goesOn {first last : Nat} : m.HoldNmi acts first last →
    ∃ e, ∀ j, first ≤ j → j ≤ last → j ≠ e → Happens Act.Begins m acts j →
      ¬ Happens Act.EntersNmi m acts j ∧ (m.after (acts.take j)).GoesOn
  /-- To run with a budget is to step, and so nothing that a history leaves out. -/
  runFor (budget : Nat) : ∃ k,
    ((m.after acts).runFor budget).machine = m.after (acts ++ List.replicate k .step)

/-- **Each assertion is answered at most once**, in every history. -/
theorem answersOnce {m : Machine} (h : Started m) (hline : m.nmi.Reachable) (acts : List Act) :
    m.AnswersOnce acts where
  released_between hlt hi hj := exists_released_between h.nmiAnswered hlt hi hj
  goesOn hhold := by
    refine goesOn_while_raised h.nmiAnswered fun k hfirst hlast => ?_
    obtain ⟨hcount, hsource⟩ := hhold k hfirst hlast
    exact ((counts_nmi_after hline.counts _).isRaised_iff hcount).mpr hsource
  runFor budget := by
    obtain ⟨k, hk⟩ := (m.after acts).exists_runFor_eq_after budget
    refine ⟨k, hk.trans ?_⟩
    unfold after
    rw [List.foldl_append]

/-- While a source holds the line, the processor enters the interrupt in its first step and goes on in
the others; and where it has answered its own request, it can be asked again. -/
theorem answersOnce_while_held :
    let m := (isolated (.empty .new)).1
    let held : List Act := [.line .nmi .connect, .line .nmi (.set 1 true), .step, .step, .step]
    let own : List Act := [.setNmi true, .step, .setNmi true, .step]
    (Happens Act.EntersNmi m held 2 ∧ ∀ j, 3 ≤ j → j ≤ 4 → (m.after (held.take j)).GoesOn) ∧
      ∃ k, 1 < k ∧ k < 3 ∧ (m.after (own.take k)).nmi.isRaised = false := by
  intro m held own
  have hstarted : Started m := .isolated (.empty .new)
  have hline : m.nmi.Reachable := InterruptLine.reachable_new
  have henter : Happens Act.EntersNmi m held 2 :=
    ⟨.step, rfl, Or.inr rfl, entersNmi_iff.mpr (by decide +kernel)⟩
  refine ⟨⟨henter, ?_⟩, ?_⟩
  · have hhold : m.HoldNmi held 2 4 := by
      intro k hfirst hlast
      obtain rfl | rfl | rfl : k = 2 ∨ k = 3 ∨ k = 4 := by omega
      all_goals exact ⟨by decide +kernel, 1, by decide +kernel⟩
    obtain ⟨e, he⟩ := (answersOnce hstarted hline held).goesOn hhold
    obtain rfl : e = 2 := by
      by_contra hne
      have hbegins : Happens Act.Begins m held 2 := ⟨.step, rfl, Or.inr rfl, by decide +kernel⟩
      exact (he 2 (by omega) (by omega) (Ne.symm hne) hbegins).1 henter
    intro j hj hj'
    refine (he j (by omega) hj' (by omega) ?_).2
    obtain rfl | rfl : j = 3 ∨ j = 4 := by omega
    all_goals exact ⟨.step, rfl, Or.inr rfl, by decide +kernel⟩
  · have hone : Happens Act.EntersNmi m own 1 :=
      ⟨.step, rfl, Or.inr rfl, entersNmi_iff.mpr (by decide +kernel)⟩
    have hthree : Happens Act.EntersNmi m own 3 :=
      ⟨.step, rfl, Or.inr rfl, entersNmi_iff.mpr (by decide +kernel)⟩
    exact (answersOnce hstarted hline own).released_between (by decide) hone hthree

end Machine

end Nmos6502
