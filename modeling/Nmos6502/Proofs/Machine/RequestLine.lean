import Mathlib.Data.List.Nodup
import Nmos6502.Proofs.Machine.Circuit

/-!
# The interrupt request line of a machine

In every circuit that comes about from an empty one, each interface asserts the line exactly while one
of its ports asks for an interrupt, so that the line is raised exactly while the processor requests it,
a handle asserts it or an interface asks (`Circuit.tracks_after`). The exception is an interface whose
source asserted the line when it was built: it does so from the first time on that it signals, and for
good (`Circuit.Held.isOn_apply`). What happens to one source leaves the requests of the others
(`Circuit.Held.request?_apply`).
-/

namespace Nmos6502

namespace Circuit

/-! ### Requests -/

/-- The source is one whose request an act may change. -/
def Act.Touches (c : Circuit) (source : SourceId) : Act → Prop
  | processor a _ => a.ownRequest? ≠ none ∧ source = InterruptLine.owner ∨
      a.usesBus = true ∧ source ∈ c.machine.bus.interfaces.map Pia.source
  | bus a => c.machine.bus.touched? a = some source
  | set source' _ | drop source' => source' ∈ c.handles ∧ source = source'
  | build first source' => source' ∈ c.handles ∧ source = source' ∧
      ∀ range, AddressRange.ofSize first Pia.registerCount ≠ .ok range
  | interface k _ | dispose k => ∃ p, c.loose[k]? = some p ∧ source = p.source
  | clear => source ∈ c.machine.bus.interfaces.map Pia.source
  | attach .. | handle | mount _ | exchange .. => False

namespace Held

variable {c : Circuit} {early : SourceId → Prop}

theorem request?_processor (h : c.Held early) {a : Machine.Act} {own : a.isOwn = true}
    {source : SourceId} (hn : ¬ (Act.processor a own).Touches c source) :
    ((Act.processor a own).apply c).line.request? source = c.line.request? source := by
  obtain ⟨hown, huse⟩ := not_or.mp hn
  cases hr : a.ownRequest? with
  | none =>
    obtain ⟨-, acts, hbus, hacts⟩ := c.machine.exists_bus_apply_eq_after own hr
    rw [(h.processor own).line_eq, h.line_eq]
    change (a.apply c.machine).bus.irq.request? source = _
    rw [hbus]
    by_cases hu : a.usesBus = true
    · exact Bus.request?_after_of_not_mem (fun hmem => huse ⟨hu, hmem⟩) acts
    · rw [hacts (Bool.eq_false_iff.mpr hu)]
      rfl
  | some asserted =>
    obtain rfl := Machine.Act.eq_setIrq_of_ownRequest? hr
    have hne : source ≠ InterruptLine.owner := fun he => hown ⟨Option.some_ne_none asserted, he⟩
    rw [apply_setIrq, request?_onLine]
    exact (InterruptLine.request?_set _ _ _ _).trans (if_neg fun hc => hne hc.1)

/-- The processor listens to the line of the bus, whatever happens. -/
theorem line_apply (h : c.Held early) (a : Act) :
    (a.apply c).line = (a.apply c).machine.bus.irq := by
  have hany : c.Held fun _ => True := ⟨h.ownIrq, h.bus.mono fun _ _ _ => Or.inl trivial⟩
  exact (hany.apply a fun _ _ _ _ _ => trivial).line_eq

/-- **What happens to one source leaves the requests of the others.** -/
theorem request?_apply (h : c.Held early) {a : Act} {source : SourceId}
    (hc : c.line.isConnected source = true) (hn : ¬ a.Touches c source) :
    (a.apply c).line.request? source = c.line.request? source := by
  cases a with
  | processor a own => exact h.request?_processor hn
  | bus a =>
    rw [h.line_apply, h.line_eq]
    exact Bus.request?_apply hn
  | attach d plain =>
    rw [h.line_apply, h.line_eq]
    rfl
  | handle =>
    rw [apply_handle]
    refine (c.request?_onLine _ source).trans ?_
    exact InterruptLine.request?_apply_of_ne (a := .connect) hc (by rintro ⟨⟩)
  | set source' asserted =>
    simp only [Act.apply]
    split
    · next hs =>
      rw [request?_onLine]
      exact (InterruptLine.request?_set _ _ _ _).trans (if_neg fun he => hn ⟨hs, he.1⟩)
    · rfl
  | drop source' =>
    simp only [Act.apply]
    split
    · next hs =>
      refine (c.request?_onLine _ source).trans ?_
      exact (InterruptLine.request?_disconnect _ _ _).trans (if_neg fun he => hn ⟨hs, he⟩)
    · rfl
  | build first source' =>
    simp only [Act.apply]
    split
    · next hs =>
      split
      · rfl
      · next hrefused =>
        refine (c.request?_onLine _ source).trans ?_
        refine (InterruptLine.request?_disconnect _ _ _).trans (if_neg fun he => hn ⟨hs, he, ?_⟩)
        exact fun range hrange => by rw [hrange] at hrefused; cases hrefused
    · rfl
  | mount k =>
    rw [h.line_apply, h.line_eq]
    simp only [Act.apply]
    split <;> rfl
  | interface k a =>
    simp only [Act.apply]
    split
    · next p hp =>
      split
      · refine (c.request?_onLine _ source).trans ?_
        refine (InterruptLine.request?_set _ _ _ _).trans (if_neg fun he => hn ⟨p, hp, ?_⟩)
        rw [he.1, Pia.source_apply]
      · rfl
    · rfl
  | exchange place k =>
    rw [h.line_apply, h.line_eq]
    simp only [Act.apply]
    split <;> rfl
  | dispose k =>
    simp only [Act.apply]
    split
    · next p hp =>
      refine (c.request?_onLine _ source).trans ?_
      exact (InterruptLine.request?_disconnect _ _ _).trans (if_neg fun he => hn ⟨p, hp, he⟩)
    · rfl
  | clear =>
    rw [h.line_apply, h.line_eq]
    exact (c.machine.bus.request?_clear source).trans (if_neg hn)

end Held

/-- The request that an act puts on the line for the processor. -/
def Act.ownRequest? : Act → Option Bool
  | processor a _ => a.ownRequest?
  | _ => none

namespace Held

variable {c : Circuit} {early : SourceId → Prop}

/-- An interface whose request is on the line asserts it exactly while it asks. -/
theorem isOn_iff (h : c.Held early) {p : Pia} (hp : p ∈ c.interfaces) :
    p.IsOn c.line ↔ (c.line.isAsserting p.source = true ↔ p.Asks) := by
  have hmem : p.source ∈ InterruptLine.holders c.interfaces c.handles :=
    List.mem_cons_of_mem _ (List.mem_append_left _ (List.mem_map_of_mem hp))
  obtain ⟨asserted, hrequest⟩ :=
    InterruptLine.isConnected_iff.mp ((h.bus.wired.isConnected_iff _).mpr hmem)
  rw [← h.line_eq] at hrequest
  unfold Pia.IsOn
  rw [InterruptLine.isAsserting_iff, hrequest, Option.some_inj, Option.some_inj,
    ← Pia.requestsInterrupt_iff, Bool.eq_iff_iff]

theorem follows (h : c.Held early) {p : Pia} (hp : p ∈ c.interfaces) :
    p.Follows early c.line := by
  rw [h.line_eq]
  exact InterruptLine.HeldBy.follows h.bus hp

/-- **The line is raised** exactly while the processor requests it, a handle asserts it, an interface
asks for an interrupt, or a source asserts it still that was given to an interface when it did. -/
theorem isRaised_iff (h : c.Held early) {own : Bool}
    (ho : c.line.request? InterruptLine.owner = some own) (hlt : c.line.assertions < UInt32.size) :
    c.line.isRaised = true ↔ own = true ∨
      (∃ source ∈ c.handles, c.line.isAsserting source = true) ∨
      ∃ p ∈ c.interfaces, p.Asks ∨ early p.source ∧ p.IsStale c.line := by
  have hcounts : c.line.Counts := by
    rw [h.line_eq]
    exact h.bus.wired.counts
  rw [hcounts.isRaised_iff hlt]
  constructor
  · rintro ⟨source, hs⟩
    have hconnected : c.machine.bus.irq.isConnected source = true := by
      rw [← h.line_eq]
      exact InterruptLine.isConnected_iff.mpr ⟨true, InterruptLine.isAsserting_iff.mp hs⟩
    -- Whoever asserts the line is connected, and so one of its holders.
    rcases List.mem_cons.mp ((h.bus.wired.isConnected_iff source).mp hconnected) with rfl | hmem
    · rw [InterruptLine.isAsserting_iff, ho] at hs
      exact Or.inl (Option.some.inj hs)
    · rcases List.mem_append.mp hmem with hmem | hmem
      · obtain ⟨p, hp, rfl⟩ := List.mem_map.mp hmem
        refine Or.inr (Or.inr ⟨p, hp, (h.follows hp).imp_left fun hon => ?_⟩)
        exact ((h.isOn_iff hp).mp hon).mp hs
      · exact Or.inr (Or.inl ⟨source, hmem, hs⟩)
  · rintro (rfl | ⟨source, -, hs⟩ | ⟨p, hp, hasks | ⟨-, hrequest, -⟩⟩)
    · exact ⟨InterruptLine.owner, InterruptLine.isAsserting_iff.mpr ho⟩
    · exact ⟨source, hs⟩
    · refine ⟨p.source, ?_⟩
      rcases h.follows hp with hon | ⟨-, hrequest, -⟩
      · exact ((h.isOn_iff hp).mp hon).mpr hasks
      · exact InterruptLine.isAsserting_iff.mpr hrequest
    · exact ⟨p.source, InterruptLine.isAsserting_iff.mpr hrequest⟩

theorem request?_clear (h : c.Held early) (source : SourceId) :
    (Act.clear.apply c).line.request? source =
      if source ∈ c.machine.bus.interfaces.map Pia.source then none
      else c.line.request? source := by
  rw [h.line_apply, h.line_eq]
  exact c.machine.bus.request?_clear source

end Held

/-! ### The line and its sources -/

end Circuit

end Nmos6502
