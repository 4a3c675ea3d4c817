import Mathlib.Data.List.Perm.Basic
import Nmos6502.Processor.Activity
import Nmos6502.Proofs.Bus.History
import Nmos6502.Proofs.InterruptLine.Sources

/-!
# Interfaces on an interrupt line

A line is held by its owner, by handles, and by the parallel interfaces that are wired to it, each of
them by a source of its own (`InterruptLine.Wired`). An interface has its request on the line from the
first time on that it signals, and before that as well if its source did not assert the line when the
interface was built (`Pia.Follows`). While this is so the line is `InterruptLine.HeldBy` its holders. An
operation that makes an interface signal puts the request there anew, and any other leaves the interface
as it is (`BusAct.change_of_not_signals`). So the line stays held whatever a bus does to the interfaces
on it (`Bus.Held.after`), and whatever else becomes of one of them: it may be built, changed, moved or
taken away.
-/

namespace Nmos6502

namespace InterruptLine

/-! ### Sources -/

/-- The line has just these sources, which are all different. -/
structure Wired (line : InterruptLine) (sources : List SourceId) : Prop where
  counts : line.Counts
  nodup : sources.Nodup
  isConnected_iff (source : SourceId) : line.isConnected source = true ↔ source ∈ sources

theorem isConnected_set (line : InterruptLine) (source other : SourceId) (asserted : Bool) :
    (line.set source asserted).isConnected other = line.isConnected other := by
  unfold isConnected
  rw [request?_set]
  split
  · next h =>
    obtain ⟨rfl, hc⟩ := h
    exact hc.symm
  · rfl

theorem isConnected_disconnect (line : InterruptLine) (source other : SourceId) :
    (line.disconnect source).isConnected other = true ↔
      other ≠ source ∧ line.isConnected other = true := by
  unfold isConnected
  rw [request?_disconnect]
  by_cases h : other = source
  · simp [h]
  · simp [h]

theorem isConnected_connect (line : InterruptLine) (other : SourceId) :
    line.connect.2.isConnected other = true ↔
      other = line.connect.1 ∨ line.isConnected other = true := by
  unfold isConnected
  rw [request?_connect]
  change _ ↔ other = line.requests.size ∨ _
  by_cases h : other = line.requests.size
  · simp [h]
  · simp [h]

namespace Wired

variable {line : InterruptLine} {sources : List SourceId}

theorem perm {sources' : List SourceId} (h : line.Wired sources) (hp : sources.Perm sources') :
    line.Wired sources' where
  counts := h.counts
  nodup := hp.nodup_iff.mp h.nodup
  isConnected_iff source := (h.isConnected_iff source).trans hp.mem_iff

theorem set (h : line.Wired sources) (source : SourceId) (asserted : Bool) :
    (line.set source asserted).Wired sources where
  counts := h.counts.set source asserted
  nodup := h.nodup
  isConnected_iff other := by
    rw [isConnected_set]
    exact h.isConnected_iff other

theorem connect (h : line.Wired sources) : line.connect.2.Wired (line.connect.1 :: sources) where
  counts := h.counts.apply .connect
  nodup := by
    refine List.nodup_cons.mpr ⟨fun hmem => ?_, h.nodup⟩
    have hc := (h.isConnected_iff line.requests.size).mpr hmem
    rw [isConnected_size] at hc
    cases hc
  isConnected_iff other := by
    rw [isConnected_connect, h.isConnected_iff, List.mem_cons]

theorem disconnect {source : SourceId} (h : line.Wired (source :: sources)) :
    (line.disconnect source).Wired sources where
  counts := h.counts.apply (.disconnect source)
  nodup := (List.nodup_cons.mp h.nodup).2
  isConnected_iff other := by
    obtain ⟨hnot, -⟩ := List.nodup_cons.mp h.nodup
    rw [isConnected_disconnect, h.isConnected_iff, List.mem_cons]
    constructor
    · rintro ⟨hne, rfl | hmem⟩
      · exact absurd rfl hne
      · exact hmem
    · intro hmem
      refine ⟨?_, Or.inr hmem⟩
      rintro rfl
      exact hnot hmem

theorem request?_set (h : line.Wired sources) {source : SourceId} (hs : source ∈ sources)
    (asserted : Bool) (other : SourceId) :
    (line.set source asserted).request? other =
      if other = source then some asserted else line.request? other := by
  have hc := (h.isConnected_iff source).mpr hs
  rw [InterruptLine.request?_set, hc]
  simp only [and_true]

end Wired

/-! ### Interfaces -/

/-- The sources by which a line is held: that of its owner, those of interfaces, and handles. -/
def holders (interfaces : List Pia) (handles : List SourceId) : List SourceId :=
  owner :: (interfaces.map Pia.source ++ handles)

end InterruptLine

namespace Pia

/-- The request of the interface is on the line. -/
def IsOn (p : Pia) (line : InterruptLine) : Prop :=
  line.request? p.source = some p.requestsInterrupt

/-- The interface is as it was built, and its source asserts the line as it did then. -/
def IsStale (p : Pia) (line : InterruptLine) : Prop :=
  line.request? p.source = some true ∧ p = .new p.range p.source

/-- What the line has of an interface: its request, or, if the source is one that asserted the line
before, what the source asserted then. -/
def Follows (early : SourceId → Prop) (p : Pia) (line : InterruptLine) : Prop :=
  p.IsOn line ∨ early p.source ∧ p.IsStale line

variable {p : Pia} {early early' : SourceId → Prop} {line line' : InterruptLine}

theorem Follows.congr (h : p.Follows early line)
    (hr : line'.request? p.source = line.request? p.source) : p.Follows early line' := by
  unfold Follows IsOn IsStale at *
  rwa [hr]

theorem Follows.mono (h : p.Follows early line) (he : early p.source → early' p.source) :
    p.Follows early' line :=
  h.imp_right (And.imp_left he)

end Pia

namespace InterruptLine

/-- The line is held by its owner, by interfaces and by handles, and follows each of the interfaces. -/
structure HeldBy (line : InterruptLine) (interfaces : List Pia) (handles : List SourceId)
    (early : SourceId → Prop) : Prop where
  wired : line.Wired (holders interfaces handles)
  follows {p : Pia} : p ∈ interfaces → p.Follows early line

namespace HeldBy

variable {line : InterruptLine} {interfaces : List Pia} {handles : List SourceId}
  {early : SourceId → Prop}

theorem holders_cons_perm (p : Pia) :
    (holders (p :: interfaces) handles).Perm (p.source :: holders interfaces handles) :=
  List.Perm.swap _ _ _

theorem holders_handle_perm (source : SourceId) :
    (holders interfaces (source :: handles)).Perm (source :: holders interfaces handles) :=
  (List.perm_middle.cons owner).trans (List.Perm.swap _ _ _)

theorem perm {interfaces' : List Pia} {handles' : List SourceId}
    (h : line.HeldBy interfaces handles early) (hp : interfaces.Perm interfaces')
    (hs : handles.Perm handles') : line.HeldBy interfaces' handles' early where
  wired := h.wired.perm (((hp.map Pia.source).append hs).cons owner)
  follows hmem := h.follows (hp.mem_iff.mpr hmem)

theorem mono {early' : SourceId → Prop} (h : line.HeldBy interfaces handles early)
    (he : ∀ p ∈ interfaces, early p.source → early' p.source ∨ p.IsOn line) :
    line.HeldBy interfaces handles early' where
  wired := h.wired
  follows {p} hp := by
    rcases h.follows hp with hon | ⟨hearly, hstale⟩
    · exact Or.inl hon
    · exact (he p hp hearly).elim (fun hearly => Or.inr ⟨hearly, hstale⟩) Or.inl

/-- No two interfaces hold the line by one source. -/
theorem source_ne {p q : Pia} (h : line.HeldBy (p :: interfaces) handles early)
    (hq : q ∈ interfaces) : q.source ≠ p.source := by
  obtain ⟨hnot, -⟩ := List.nodup_cons.mp (h.wired.perm (holders_cons_perm p)).nodup
  intro he
  refine hnot (List.mem_cons_of_mem owner (List.mem_append_left _ ?_))
  exact List.mem_map.mpr ⟨q, hq, he⟩

/-- No interface holds the line by the source of the owner or by a handle. -/
theorem source_ne_of_mem {p : Pia} {source : SourceId}
    (h : line.HeldBy interfaces handles early) (hs : source ∈ owner :: handles)
    (hp : p ∈ interfaces) : p.source ≠ source := by
  have hmem : p.source ∈ interfaces.map Pia.source := List.mem_map_of_mem hp
  obtain ⟨howner, hrest⟩ := List.nodup_cons.mp h.wired.nodup
  obtain ⟨-, -, hdisjoint⟩ := List.nodup_append.mp hrest
  rcases List.mem_cons.mp hs with rfl | hs
  · rintro he
    exact howner (List.mem_append_left _ (he ▸ hmem))
  · exact hdisjoint _ hmem _ hs

/-- The owner and the handles may set their requests as they like. -/
theorem set {source : SourceId} (h : line.HeldBy interfaces handles early)
    (hs : source ∈ owner :: handles) (asserted : Bool) :
    (line.set source asserted).HeldBy interfaces handles early where
  wired := h.wired.set source asserted
  follows {p} hp := by
    refine (h.follows hp).congr ?_
    rw [request?_set, if_neg fun hc => h.source_ne_of_mem hs hp hc.1]

/-- An interface changes and puts its request on the line. -/
theorem signal {p p' : Pia} (h : line.HeldBy (p :: interfaces) handles early)
    (hs : p'.source = p.source) :
    (p'.signal line).HeldBy (p' :: interfaces) handles early where
  wired := by
    have hsame : holders (p' :: interfaces) handles = holders (p :: interfaces) handles := by
      unfold holders
      rw [List.map_cons, List.map_cons, hs]
    rw [hsame]
    exact h.wired.set p'.source p'.requestsInterrupt
  follows {q} hq := by
    have hmem : p'.source ∈ holders (p :: interfaces) handles := by
      rw [hs]
      exact List.mem_cons_of_mem owner (List.mem_cons_self ..)
    have hrequest := h.wired.request?_set hmem p'.requestsInterrupt q.source
    rcases List.mem_cons.mp hq with rfl | hq
    · exact Or.inl (hrequest.trans (if_pos rfl))
    · refine (h.follows (List.mem_cons_of_mem p hq)).congr ?_
      exact hrequest.trans (if_neg (hs ▸ h.source_ne hq))

theorem connect (h : line.HeldBy interfaces handles early) :
    line.connect.2.HeldBy interfaces (line.connect.1 :: handles) early where
  wired := h.wired.connect.perm (holders_handle_perm _).symm
  follows {p} hp := by
    have hmem : p.source ∈ holders interfaces handles :=
      List.mem_cons_of_mem owner (List.mem_append_left _ (List.mem_map_of_mem hp))
    obtain ⟨asserted, hr⟩ := isConnected_iff.mp ((h.wired.isConnected_iff _).mpr hmem)
    refine (h.follows hp).congr ?_
    rw [request?_connect, if_neg (Nat.ne_of_lt (lt_size_of_request? hr))]

/-- A handle becomes the source of a new interface. -/
theorem build {p : Pia} (h : line.HeldBy interfaces (p.source :: handles) early)
    (hp : p.Follows early line) : line.HeldBy (p :: interfaces) handles early where
  wired := h.wired.perm ((holders_handle_perm _).trans (holders_cons_perm p).symm)
  follows {q} hq := by
    rcases List.mem_cons.mp hq with rfl | hq
    · exact hp
    · exact h.follows hq

theorem disconnect_handle {source : SourceId}
    (h : line.HeldBy interfaces (source :: handles) early) :
    (line.disconnect source).HeldBy interfaces handles early where
  wired := (h.wired.perm (holders_handle_perm source)).disconnect
  follows {p} hp := by
    have hmem : source ∈ owner :: source :: handles :=
      List.mem_cons_of_mem owner (List.mem_cons_self ..)
    refine (h.follows hp).congr ?_
    rw [request?_disconnect, if_neg (h.source_ne_of_mem hmem hp)]

theorem disconnect {p : Pia} (h : line.HeldBy (p :: interfaces) handles early) :
    (line.disconnect p.source).HeldBy interfaces handles early where
  wired := (h.wired.perm (holders_cons_perm p)).disconnect
  follows {q} hq := by
    refine (h.follows (List.mem_cons_of_mem p hq)).congr ?_
    rw [request?_disconnect, if_neg (h.source_ne hq)]

end HeldBy

end InterruptLine

/-! ### Interfaces on a bus -/

namespace Device

theorem signal_of_pia?_eq_none {d : Device} (h : d.pia? = none) (line : InterruptLine) :
    d.signal line = line := by
  cases d with
  | pia p => cases h
  | _ => rfl

theorem disconnect_of_pia?_eq_none {d : Device} (h : d.pia? = none) (line : InterruptLine) :
    d.disconnect line = line := by
  cases d with
  | pia p => cases h
  | _ => rfl

theorem eq_pia_of_pia? {d : Device} {p : Pia} (h : d.pia? = some p) : d = .pia p := by
  cases d with
  | pia q => exact congrArg Device.pia (Option.some.inj h)
  | _ => cases h

end Device

namespace Bus

/-- The interfaces on a bus, in order. -/
def interfaces (bus : Bus) : List Pia :=
  bus.devices.toList.filterMap Device.pia?

/-- The interfaces at all places but one. -/
def interfacesBut (bus : Bus) (i : Nat) : List Pia :=
  (bus.devices.toList.eraseIdx i).filterMap Device.pia?

/-- The bus with another device at a place. -/
def replace (bus : Bus) (i : Nat) (d : Device) : Bus :=
  { bus with devices := bus.devices.setIfInBounds i d }

theorem filterMap_pia?_cons (d : Device) (ds : List Device) :
    (d :: ds).filterMap Device.pia? = d.pia?.toList ++ ds.filterMap Device.pia? := by
  rw [List.filterMap_cons]
  cases d.pia? <;> rfl

theorem interfaces_perm {bus : Bus} {i : Nat} {d : Device} (hd : bus.device? i = some d) :
    bus.interfaces.Perm (d.pia?.toList ++ bus.interfacesBut i) := by
  obtain ⟨hlt, rfl⟩ := Array.getElem?_eq_some_iff.mp hd
  have hperm := (List.getElem_cons_eraseIdx_perm (l := bus.devices.toList) hlt).symm
  exact (hperm.filterMap Device.pia?).trans (.of_eq (filterMap_pia?_cons _ _))

theorem interfaces_replace {bus : Bus} {i : Nat} {d : Device} (hd : bus.device? i = some d)
    (d' : Device) : (bus.replace i d').interfaces.Perm (d'.pia?.toList ++ bus.interfacesBut i) := by
  obtain ⟨hlt, -⟩ := Array.getElem?_eq_some_iff.mp hd
  unfold interfaces replace interfacesBut
  rw [Array.toList_setIfInBounds, ← filterMap_pia?_cons]
  exact (List.set_perm_cons_eraseIdx hlt d').filterMap Device.pia?

theorem interfaces_attach (bus : Bus) (d : Device) :
    (bus.attach d).interfaces = bus.interfaces ++ d.pia?.toList := by
  unfold interfaces attach
  rw [Array.toList_push, List.filterMap_append, filterMap_pia?_cons]
  simp

theorem update_eq {bus : Bus} {i : Nat} {d : Device} (hd : bus.device? i = some d)
    (signals : Device → Bool) (f : Device → Device) : bus.update i signals f =
      { bus.replace i (f d) with irq := if signals d then (f d).signal bus.irq else bus.irq } := by
  rcases bus with ⟨devices, irq⟩
  unfold device? at hd
  dsimp only at hd
  obtain ⟨hlt, hget⟩ := Array.getElem?_eq_some_iff.mp hd
  have hmodify : devices.modify i f = devices.setIfInBounds i (f d) := by
    refine Array.ext_getElem? fun j => ?_
    rw [Array.getElem?_modify, Array.getElem?_setIfInBounds]
    by_cases hj : i = j
    · subst hj
      simp [hget, hlt]
    · simp [hj]
  unfold update replace
  dsimp only
  rw [Array.getElem?_modify, if_pos rfl, hd, hmodify]
  rfl

theorem update_of_device?_eq_none {bus : Bus} {i : Nat} (hd : bus.device? i = none)
    (signals : Device → Bool) (f : Device → Device) : bus.update i signals f = bus := by
  rcases bus with ⟨devices, irq⟩
  unfold device? at hd
  dsimp only at hd
  have hmodify : devices.modify i f = devices := by
    refine Array.ext_getElem? fun j => ?_
    rw [Array.getElem?_modify]
    by_cases hj : i = j
    · subst hj
      simp [hd]
    · simp [hj]
  unfold update
  dsimp only
  rw [Array.getElem?_modify, if_pos rfl, hd, hmodify]
  rfl

theorem replace_self {bus : Bus} {i : Nat} {d : Device} (hd : bus.device? i = some d) :
    bus.replace i d = bus := by
  rcases bus with ⟨devices, irq⟩
  refine congrArg (Bus.mk · irq) (Array.ext_getElem? fun j => ?_)
  unfold device? at hd
  dsimp only at hd
  rw [Array.getElem?_setIfInBounds]
  split
  · next hj =>
    subst hj
    rw [hd, if_pos (Array.getElem?_eq_some_iff.mp hd).1]
  · rfl

/-- The line of a bus is held by its owner, by the interfaces on the bus, by others, and by handles. -/
def Held (bus : Bus) (loose : List Pia) (handles : List SourceId) (early : SourceId → Prop) : Prop :=
  bus.irq.HeldBy (bus.interfaces ++ loose) handles early

namespace Held

variable {bus : Bus} {loose : List Pia} {handles : List SourceId} {early : SourceId → Prop}

theorem perm_loose {loose' : List Pia} (h : bus.Held loose handles early)
    (hp : loose.Perm loose') : bus.Held loose' handles early :=
  h.perm (hp.append_left bus.interfaces) (.refl _)

/-- Something happens to a device that keeps its source. An interface that changes signals. -/
theorem update (h : bus.Held loose handles early) (i : Nat) {signals : Device → Bool}
    {f : Device → Device} (hsource : ∀ d, (f d).source? = d.source?)
    (hquiet : ∀ d, d.pia? ≠ none → signals d = false → f d = d) :
    (bus.update i signals f).Held loose handles early := by
  cases hd : bus.device? i with
  | none =>
    rw [update_of_device?_eq_none hd]
    exact h
  | some d =>
    have hbefore := (interfaces_perm hd).append_right loose
    have hafter := (interfaces_replace hd (f d)).append_right loose
    have hs := hsource d
    unfold Held Device.source? at *
    rw [update_eq hd]
    cases hp : d.pia? with
    | none =>
      rw [hp, Option.map_none, Option.map_eq_none_iff] at hs
      rw [hp] at hbefore
      rw [hs] at hafter
      rw [Device.signal_of_pia?_eq_none hs, ite_self]
      exact h.perm (hbefore.trans hafter.symm) (.refl _)
    | some p =>
      cases hsignals : signals d with
      | false =>
        have hsame : f d = d := hquiet d (hp ▸ Option.some_ne_none p) hsignals
        rw [hsame, replace_self hd]
        exact h
      | true =>
        rw [hp, Option.map_some, Option.map_eq_some_iff] at hs
        obtain ⟨p', hp', hs⟩ := hs
        rw [hp] at hbefore
        rw [hp'] at hafter
        rw [Device.eq_pia_of_pia? hp', if_pos rfl]
        rw [Device.eq_pia_of_pia? hp'] at hafter
        exact ((h.perm hbefore (.refl _)).signal hs).perm hafter.symm (.refl _)

theorem clock (h : bus.Held loose handles early) : bus.clock.Held loose handles early := by
  have hsame : bus.clock.interfaces = bus.interfaces := by
    unfold interfaces Bus.clock
    rw [Array.toList_map, List.filterMap_map]
    congr 1
    funext d
    cases d <;> rfl
  unfold Held
  rw [hsame]
  exact h

/-- **The line stays held** whatever happens on the bus. -/
theorem apply (h : bus.Held loose handles early) (a : BusAct) :
    (a.apply bus).Held loose handles early := by
  by_cases hclock : a = .clock
  · subst hclock
    exact h.clock
  · rw [apply_eq_updateAt bus hclock]
    unfold updateAt
    cases a.target? bus with
    | none => exact h
    | some i =>
      exact h.update i (fun d => source?_change d a) fun d hp => BusAct.change_of_not_signals hp

theorem after (h : bus.Held loose handles early) (acts : List BusAct) :
    (bus.after acts).Held loose handles early := by
  induction acts using List.reverseRecOn with
  | nil => exact h
  | append_singleton acts a ih =>
    rw [after_append_singleton]
    exact ih.apply a

theorem attach {d : Device} (h : bus.Held loose handles early) (hd : d.pia? = none) :
    (bus.attach d).Held loose handles early := by
  unfold Held
  rw [interfaces_attach, hd, Option.toList_none, List.append_nil]
  exact h

theorem mount {p : Pia} (h : bus.Held (p :: loose) handles early) :
    (bus.attach (.pia p)).Held loose handles early := by
  unfold Held
  rw [interfaces_attach, List.append_assoc]
  exact h

/-- An interface on the bus and one that is not change places. -/
theorem exchange {p q : Pia} {i : Nat} (h : bus.Held (p :: loose) handles early)
    (hq : bus.device? i = some (.pia q)) :
    (bus.replace i (.pia p)).Held (q :: loose) handles early := by
  have hbefore := (interfaces_perm hq).append_right (p :: loose)
  have hafter := (interfaces_replace hq (.pia p)).append_right (q :: loose)
  have hswap : ((q :: bus.interfacesBut i) ++ p :: loose).Perm
      ((p :: bus.interfacesBut i) ++ q :: loose) :=
    (List.perm_middle.cons q).trans
      ((List.Perm.swap p q _).trans (List.perm_middle.symm.cons p))
  exact h.perm ((hbefore.trans hswap).trans hafter.symm) (.refl _)

end Held

/-! ### Requests -/

theorem mem_sources_iff {bus : Bus} {source : SourceId} :
    source ∈ bus.interfaces.map Pia.source ↔ ∃ i, bus.sourceAt? i = some source := by
  unfold sourceAt? Device.source?
  rw [List.mem_map]
  constructor
  · rintro ⟨p, hp, rfl⟩
    obtain ⟨d, hd, hdp⟩ := List.mem_filterMap.mp hp
    obtain ⟨i, hi⟩ := Array.mem_iff_getElem?.mp (Array.mem_toList_iff.mp hd)
    refine ⟨i, Option.bind_eq_some_iff.mpr ⟨d, hi, ?_⟩⟩
    rw [hdp]
    rfl
  · rintro ⟨i, hi⟩
    obtain ⟨d, hd, hs⟩ := Option.bind_eq_some_iff.mp hi
    obtain ⟨p, hp, rfl⟩ := Option.map_eq_some_iff.mp hs
    exact ⟨p, List.mem_filterMap.mpr
      ⟨d, Array.mem_toList_iff.mpr (Array.mem_iff_getElem?.mpr ⟨i, hd⟩), hp⟩, rfl⟩

theorem sourceAt?_apply (bus : Bus) (a : BusAct) (i : Nat) :
    (a.apply bus).sourceAt? i = bus.sourceAt? i := by
  unfold sourceAt?
  rw [device?_apply]
  cases bus.device? i with
  | none => rfl
  | some d =>
    change (a.onDevice bus i d).source? = d.source?
    unfold BusAct.onDevice
    split
    · exact source?_change d a
    · rfl

/-- A history leaves the requests of all sources that are not those of its interfaces. -/
theorem request?_after_of_not_mem {bus : Bus} {source : SourceId}
    (h : source ∉ bus.interfaces.map Pia.source) (acts : List BusAct) :
    (bus.after acts).irq.request? source = bus.irq.request? source := by
  -- The sources of the interfaces stay what they are, so the source is not among them later either.
  have hall : ∀ acts : List BusAct, source ∉ (bus.after acts).interfaces.map Pia.source ∧
      (bus.after acts).irq.request? source = bus.irq.request? source := by
    intro acts
    induction acts using List.reverseRecOn with
    | nil => exact ⟨h, rfl⟩
    | append_singleton acts a ih =>
      obtain ⟨hnot, hsame⟩ := ih
      rw [after_append_singleton]
      constructor
      · rw [mem_sources_iff] at hnot ⊢
        simpa only [sourceAt?_apply] using hnot
      · rw [request?_apply, hsame]
        intro htouched
        obtain ⟨i, -, hi⟩ := Option.bind_eq_some_iff.mp htouched
        exact hnot (mem_sources_iff.mpr ⟨i, hi⟩)
  exact (hall acts).2

/-! ### Taking all devices away -/

theorem heldBy_foldl_disconnect {line : InterruptLine} {ds : List Device} {loose : List Pia}
    {handles : List SourceId} {early : SourceId → Prop}
    (h : line.HeldBy (ds.filterMap Device.pia? ++ loose) handles early) :
    (ds.foldl (fun line d => d.disconnect line) line).HeldBy loose handles early := by
  induction ds generalizing line with
  | nil => exact h
  | cons d rest ih =>
    rw [filterMap_pia?_cons] at h
    rw [List.foldl_cons]
    cases hp : d.pia? with
    | none =>
      rw [hp] at h
      rw [Device.disconnect_of_pia?_eq_none hp]
      exact ih h
    | some p =>
      rw [hp] at h
      rw [Device.eq_pia_of_pia? hp]
      exact ih h.disconnect

theorem request?_foldl_disconnect (line : InterruptLine) (ds : List Device) (source : SourceId) :
    (ds.foldl (fun line d => d.disconnect line) line).request? source =
      if source ∈ (ds.filterMap Device.pia?).map Pia.source then none
      else line.request? source := by
  induction ds generalizing line with
  | nil => rfl
  | cons d rest ih =>
    rw [filterMap_pia?_cons, List.foldl_cons, ih]
    cases hp : d.pia? with
    | none =>
      rw [Device.disconnect_of_pia?_eq_none hp]
      rfl
    | some p =>
      have hd : d.disconnect line = line.disconnect p.source := by
        rw [Device.eq_pia_of_pia? hp]
        rfl
      rw [hd, InterruptLine.request?_disconnect, Option.toList_some, List.singleton_append,
        List.map_cons]
      by_cases hs : source = p.source
      · have hmem : source ∈ p.source :: (rest.filterMap Device.pia?).map Pia.source := by
          rw [hs]
          exact List.mem_cons_self ..
        rw [if_pos hs, if_pos hmem, ite_self]
      · rw [if_neg hs]
        refine if_congr ?_ rfl rfl
        rw [List.mem_cons, or_iff_right hs]

theorem Held.clear {bus : Bus} {loose : List Pia} {handles : List SourceId}
    {early : SourceId → Prop} (h : bus.Held loose handles early) :
    bus.clear.Held loose handles early := by
  have hline : bus.released =
      bus.devices.toList.foldl (fun line d => d.disconnect line) bus.irq :=
    (Array.foldl_toList _).symm
  unfold Held Bus.clear
  rw [hline]
  exact heldBy_foldl_disconnect h

/-- **To take all devices away** withdraws the requests of the interfaces among them and no other. -/
theorem request?_clear (bus : Bus) (source : SourceId) : bus.clear.irq.request? source =
    if source ∈ bus.interfaces.map Pia.source then none else bus.irq.request? source := by
  have hline : bus.released =
      bus.devices.toList.foldl (fun line d => d.disconnect line) bus.irq :=
    (Array.foldl_toList _).symm
  unfold Bus.clear
  rw [hline]
  exact request?_foldl_disconnect bus.irq bus.devices.toList source

end Bus

/-! ### Activities -/

/-- An activity does to the bus what a history of reads and writes does. -/
theorem Activity.exists_run_eq_after {α : Type} (activity : Activity α) (bus : Bus) :
    ∃ acts, (activity.run bus).bus = bus.after acts := by
  induction activity generalizing bus with
  | done value => exact ⟨[], rfl⟩
  | read address next ih =>
    obtain ⟨acts, hacts⟩ := ih (bus.read address).1 (bus.read address).2
    exact ⟨.read address :: acts, hacts⟩
  | write address value next ih =>
    obtain ⟨acts, hacts⟩ := ih (bus.write address value)
    exact ⟨.write address value :: acts, hacts⟩
  | note event next ih => exact ih bus

end Nmos6502
