import Mathlib.Data.List.Induction
import Nmos6502.InterruptLine

/-!
# The sources of a line

A line counts the sources that assert it. It changes the number by what each act changes, modulo
`UInt32.size`, so that the number is right after every history of acts, however many sources there
have been in between (`InterruptLine.counts_after`), as soon as there are fewer than `UInt32.size` of
them. Hence the line is raised exactly while some source asserts it, no act makes the number run over
or under, and no source can touch what another one holds (`InterruptLine.WiredOr`).

What a history leaves a source with is what the source has done last
(`InterruptLine.request?_after`), and so histories that differ only in how the acts of different
sources follow each other lead to the same line (`InterruptLine.after_congr`).
-/

namespace Nmos6502

/-- What a source may do to a line. -/
inductive LineAct
  | connect
  | set (source : SourceId) (asserted : Bool)
  | disconnect (source : SourceId)
  deriving DecidableEq, Repr

namespace LineAct

/-- The line afterwards. -/
def apply (line : InterruptLine) : LineAct → InterruptLine
  | connect => line.connect.2
  | set source asserted => line.set source asserted
  | disconnect source => line.disconnect source

/-- The source that acts; to be connected is no act of its own. -/
def source? : LineAct → Option SourceId
  | connect => none
  | set source _ => some source
  | disconnect source => some source

/-- The request that the act leaves its source with. -/
def request? : LineAct → Option Bool
  | connect => some false
  | set _ asserted => some asserted
  | disconnect _ => none

end LineAct

namespace InterruptLine

/-- The line after a history. -/
def after (line : InterruptLine) (acts : List LineAct) : InterruptLine :=
  acts.foldl LineAct.apply line

theorem after_append_singleton (line : InterruptLine) (acts : List LineAct) (a : LineAct) :
    line.after (acts ++ [a]) = a.apply (line.after acts) := by
  unfold after
  rw [List.foldl_append, List.foldl_cons, List.foldl_nil]

/-- A line that comes about from a new one. -/
def Reachable (line : InterruptLine) : Prop :=
  ∃ acts, new.after acts = line

theorem reachable_new : new.Reachable := ⟨[], rfl⟩

theorem Reachable.act {line : InterruptLine} (h : line.Reachable) (a : LineAct) :
    (a.apply line).Reachable := by
  obtain ⟨acts, rfl⟩ := h
  exact ⟨acts ++ [a], new.after_append_singleton acts a⟩

/-- How many sources assert a line. -/
def assertions (line : InterruptLine) : Nat :=
  line.requests.countP (· == some true)

/-- How many sources a line has. -/
def connections (line : InterruptLine) : Nat :=
  line.requests.countP Option.isSome

/-- The number that a line keeps is that of its asserting sources, modulo `UInt32.size`. -/
def Counts (line : InterruptLine) : Prop :=
  line.count = UInt32.ofNat line.assertions

/-! ### Counting requests -/

theorem countP_setIfInBounds {α : Type} (p : α → Bool) {xs : Array α} {i : Nat} (h : i < xs.size)
    (x : α) : (xs.setIfInBounds i x).countP p + (p xs[i]).toNat = xs.countP p + (p x).toNat := by
  have hset : xs.setIfInBounds i x = xs.set i x h := dif_pos h
  have hpos : p xs[i] = true → 0 < xs.countP p := fun hi =>
    Array.countP_pos_iff.mpr ⟨xs[i], Array.getElem_mem h, hi⟩
  rw [hset, Array.countP_set h]
  cases hi : p xs[i] <;> cases p x
  · rfl
  · rfl
  · have := hpos hi
    simp
    omega
  · have := hpos hi
    simp
    omega

theorem getElem_requests {line : InterruptLine} {source : SourceId} {before : Bool}
    (h : line.request? source = some before) :
    ∃ hlt : source < line.requests.size, line.requests[source] = some before := by
  have hlt := lt_size_of_request? h
  refine ⟨hlt, ?_⟩
  unfold request? at h
  rw [Array.getElem?_eq_getElem hlt] at h
  exact h

theorem isAsserting_iff {line : InterruptLine} {source : SourceId} :
    line.isAsserting source = true ↔ line.request? source = some true := by
  unfold isAsserting
  exact beq_iff_eq

theorem isConnected_iff {line : InterruptLine} {source : SourceId} :
    line.isConnected source = true ↔ ∃ asserted, line.request? source = some asserted := by
  unfold isConnected
  exact Option.isSome_iff_exists

theorem set_of_request?_eq_none {line : InterruptLine} {source : SourceId}
    (h : line.request? source = none) (asserted : Bool) : line.set source asserted = line := by
  unfold set
  rw [h]

theorem set_of_request? {line : InterruptLine} {source : SourceId} {before : Bool}
    (h : line.request? source = some before) (asserted : Bool) : line.set source asserted =
      if before = asserted then line
      else ⟨if asserted then line.count + 1 else line.count - 1,
        line.requests.setIfInBounds source (some asserted)⟩ := by
  unfold set
  rw [h]

/-- A source that sets its request changes the number of asserting sources by the difference. -/
theorem assertions_set {line : InterruptLine} {source : SourceId} {before : Bool}
    (h : line.request? source = some before) (asserted : Bool) :
    (line.set source asserted).assertions + before.toNat = line.assertions + asserted.toNat := by
  obtain ⟨hlt, hget⟩ := getElem_requests h
  rw [set_of_request? h]
  split
  · next he => rw [he]
  · have hcount := countP_setIfInBounds (· == some true) hlt (some asserted)
    rw [hget] at hcount
    unfold assertions
    cases before <;> cases asserted <;> exact hcount

theorem connections_set (line : InterruptLine) (source : SourceId) (asserted : Bool) :
    (line.set source asserted).connections = line.connections := by
  cases h : line.request? source with
  | none => rw [set_of_request?_eq_none h]
  | some before =>
    obtain ⟨hlt, hget⟩ := getElem_requests h
    rw [set_of_request? h]
    split
    · rfl
    · have hcount := countP_setIfInBounds Option.isSome hlt (some asserted)
      rw [hget] at hcount
      exact Nat.add_right_cancel hcount

theorem size_set (line : InterruptLine) (source : SourceId) (asserted : Bool) :
    (line.set source asserted).requests.size = line.requests.size := by
  unfold set
  split
  · rfl
  · split
    · rfl
    · exact Array.size_setIfInBounds

theorem isAsserting_eq_getElem {line : InterruptLine} {source : SourceId}
    (h : source < line.requests.size) :
    line.isAsserting source = (line.requests[source] == some true) := by
  unfold isAsserting request?
  rw [Array.getElem?_eq_getElem h]
  rfl

theorem isAsserting_set_false (line : InterruptLine) (source : SourceId) :
    (line.set source false).isAsserting source = false := by
  cases h : line.request? source with
  | none =>
    rw [set_of_request?_eq_none h]
    unfold isAsserting
    rw [h]
    rfl
  | some before =>
    have hconnected : line.isConnected source = true := isConnected_iff.mpr ⟨before, h⟩
    unfold isAsserting
    rw [request?_set, if_pos ⟨rfl, hconnected⟩]
    rfl

/-- To disconnect a source lowers the number of asserting sources no further than its release. -/
theorem assertions_disconnect (line : InterruptLine) (source : SourceId) :
    (line.disconnect source).assertions = (line.set source false).assertions := by
  have hreleased := line.isAsserting_set_false source
  unfold disconnect assertions
  dsimp only
  rcases Nat.lt_or_ge source (line.set source false).requests.size with hlt | hge
  · have hcount := countP_setIfInBounds (· == some true) hlt (none : Option Bool)
    rw [isAsserting_eq_getElem hlt] at hreleased
    rw [hreleased] at hcount
    exact hcount
  · rw [Array.setIfInBounds_eq_of_size_le hge]

theorem assertions_connect (line : InterruptLine) :
    line.connect.2.assertions = line.assertions :=
  Array.countP_push

theorem assertions_le_connections (line : InterruptLine) : line.assertions ≤ line.connections := by
  refine Array.countP_mono_left fun request _ h => ?_
  rw [beq_iff_eq] at h
  rw [h]
  rfl

/-- Where a source does not assert the line, not all of the sources do. -/
theorem assertions_lt_connections {line : InterruptLine} {source : SourceId}
    (h : line.request? source = some false) : line.assertions < line.connections := by
  have hset := assertions_set h true
  have hle := (line.set source true).assertions_le_connections
  rw [connections_set] at hle
  exact Nat.lt_of_lt_of_le (Nat.lt_of_lt_of_eq (Nat.lt_succ_self _) hset.symm) hle

/-! ### The number that a line keeps -/

theorem Counts.set {line : InterruptLine} (h : line.Counts) (source : SourceId) (asserted : Bool) :
    (line.set source asserted).Counts := by
  cases hr : line.request? source with
  | none => rwa [set_of_request?_eq_none hr]
  | some before =>
    have hset := assertions_set hr asserted
    unfold Counts at h ⊢
    generalize (line.set source asserted).assertions = n at hset
    rw [set_of_request? hr]
    cases before <;> cases asserted
    · rw [if_pos rfl, h]
      exact congrArg UInt32.ofNat hset.symm
    · obtain rfl : n = line.assertions + 1 := hset
      rw [UInt32.ofNat_add, ← h]
      rfl
    · have hn : n + 1 = line.assertions := hset
      rw [← hn, UInt32.ofNat_add] at h
      exact (congrArg (· - 1) h).trans (UInt32.add_sub_cancel (UInt32.ofNat n) 1)
    · rw [if_pos rfl, h]
      exact congrArg UInt32.ofNat (Nat.add_right_cancel hset).symm

theorem Counts.apply {line : InterruptLine} (h : line.Counts) (a : LineAct) :
    (a.apply line).Counts := by
  cases a with
  | connect =>
    unfold LineAct.apply Counts
    rw [assertions_connect]
    exact h
  | set source asserted => exact h.set source asserted
  | disconnect source =>
    have hset := h.set source false
    unfold LineAct.apply Counts
    dsimp only
    rw [assertions_disconnect]
    exact hset

/-- **The number that a line keeps** is right after every history. -/
theorem counts_after (acts : List LineAct) : (new.after acts).Counts := by
  induction acts using List.reverseRecOn with
  | nil => rfl
  | append_singleton acts a ih =>
    rw [after_append_singleton]
    exact ih.apply a

theorem Reachable.counts {line : InterruptLine} (h : line.Reachable) : line.Counts := by
  obtain ⟨acts, rfl⟩ := h
  exact counts_after acts

theorem Counts.toNat_count {line : InterruptLine} (h : line.Counts)
    (hlt : line.assertions < UInt32.size) : line.count.toNat = line.assertions := by
  unfold Counts at h
  rw [h, UInt32.toNat_ofNat', Nat.mod_eq_of_lt hlt]

theorem assertions_pos_iff {line : InterruptLine} :
    0 < line.assertions ↔ ∃ source, line.isAsserting source = true := by
  unfold assertions
  simp only [Array.countP_pos_iff, beq_iff_eq, exists_eq_right, Array.mem_iff_getElem?,
    isAsserting_iff, request?, Option.join_eq_some_iff]

/-- **A line is raised** exactly while some source asserts it. -/
theorem Counts.isRaised_iff {line : InterruptLine} (h : line.Counts)
    (hlt : line.assertions < UInt32.size) :
    line.isRaised = true ↔ ∃ source, line.isAsserting source = true := by
  rw [← assertions_pos_iff, ← h.toNat_count hlt]
  unfold isRaised
  rw [bne_iff_ne, ne_eq, ← UInt32.toNat_inj, UInt32.toNat_zero]
  exact Nat.pos_iff_ne_zero.symm

/-! ### What each act does -/

/-- The sources of a line are joined by a disjunction: the line is raised while some source asserts it,
and each source changes its own share of that and no other. -/
structure WiredOr (line : InterruptLine) : Prop where
  toNat_count : line.count.toNat = line.assertions
  isRaised_iff : line.isRaised = true ↔ ∃ source, line.isAsserting source = true
  /-- To raise a released source adds one, and the number has room for it. -/
  raise {source : SourceId} : line.request? source = some false →
    line.count.toNat + 1 < UInt32.size ∧
      (line.set source true).count.toNat = line.count.toNat + 1
  /-- To lower an asserting source takes one away, and there is one to take. -/
  lower {source : SourceId} : line.request? source = some true →
    0 < line.count.toNat ∧ (line.set source false).count.toNat + 1 = line.count.toNat
  /-- To repeat a request changes nothing. -/
  again {source : SourceId} {asserted : Bool} :
    line.request? source = some asserted → line.set source asserted = line
  /-- A new source is not one of those that there are; it starts released, and the line stays as it
  is. -/
  connect : line.isConnected line.connect.1 = false ∧
    line.connect.2.request? line.connect.1 = some false ∧ line.connect.2.count = line.count
  /-- A source that is disconnected takes its own share with it. -/
  disconnect (source : SourceId) : (line.disconnect source).request? source = none ∧
    (line.disconnect source).count.toNat + (line.isAsserting source).toNat = line.count.toNat
  /-- No act changes what another source holds. -/
  others (a : LineAct) {other : SourceId} : line.isConnected other = true →
    a.source? ≠ some other → (a.apply line).request? other = line.request? other

theorem request?_connect (line : InterruptLine) (other : SourceId) :
    line.connect.2.request? other =
      if other = line.requests.size then some false else line.request? other := by
  unfold connect request?
  dsimp only
  rw [Array.getElem?_push]
  split <;> rfl

theorem isConnected_size (line : InterruptLine) : line.isConnected line.requests.size = false := by
  unfold isConnected request?
  rw [Array.getElem?_eq_none (Nat.le_refl _)]
  rfl

theorem request?_apply (line : InterruptLine) {a : LineAct} (ha : a ≠ .connect) (other : SourceId) :
    (a.apply line).request? other =
      if a.source? = some other ∧ line.isConnected other = true then a.request?
      else line.request? other := by
  by_cases h : a.source? = some other
  · cases a with
    | connect => exact absurd rfl ha
    | set source asserted =>
      cases h
      refine (line.request?_set other other asserted).trans (if_congr ?_ rfl rfl)
      exact ⟨fun hc => ⟨rfl, hc.2⟩, fun hc => ⟨rfl, hc.2⟩⟩
    | disconnect source =>
      cases h
      refine (line.request?_disconnect other other).trans ((if_pos rfl).trans ?_)
      cases hr : line.request? other with
      | none => exact (ite_self none).symm
      | some before => exact (if_pos ⟨rfl, isConnected_iff.mpr ⟨before, hr⟩⟩).symm
  · rw [if_neg fun hc => h hc.1]
    cases a with
    | connect => exact absurd rfl ha
    | set source asserted =>
      refine (line.request?_set source other asserted).trans (if_neg fun hc => h ?_)
      exact congrArg some hc.1.symm
    | disconnect source =>
      refine (line.request?_disconnect source other).trans (if_neg fun hc => h ?_)
      exact congrArg some hc.symm

theorem request?_apply_of_ne {line : InterruptLine} {a : LineAct} {other : SourceId}
    (hc : line.isConnected other = true) (h : a.source? ≠ some other) :
    (a.apply line).request? other = line.request? other := by
  by_cases ha : a = .connect
  · subst ha
    refine (line.request?_connect other).trans (if_neg ?_)
    rintro rfl
    rw [isConnected_size] at hc
    cases hc
  · rw [request?_apply line ha, if_neg fun hs => h hs.1]

theorem Counts.wiredOr {line : InterruptLine} (h : line.Counts)
    (hlt : line.connections < UInt32.size) : line.WiredOr where
  toNat_count := h.toNat_count (Nat.lt_of_le_of_lt line.assertions_le_connections hlt)
  isRaised_iff := h.isRaised_iff (Nat.lt_of_le_of_lt line.assertions_le_connections hlt)
  raise {source} hr := by
    have hroom := assertions_lt_connections hr
    have hset : (line.set source true).assertions = line.assertions + 1 := assertions_set hr true
    rw [(h.set source true).toNat_count (by omega), h.toNat_count (by omega), hset]
    exact ⟨by omega, rfl⟩
  lower {source} hr := by
    have hle := line.assertions_le_connections
    have hset : (line.set source false).assertions + 1 = line.assertions := assertions_set hr false
    rw [(h.set source false).toNat_count (by omega), h.toNat_count (by omega), hset]
    exact ⟨by omega, rfl⟩
  again hr := by
    rw [set_of_request? hr, if_pos rfl]
  connect := by
    refine ⟨line.isConnected_size, ?_, rfl⟩
    rw [request?_connect]
    exact if_pos rfl
  disconnect source := by
    have hle := line.assertions_le_connections
    have hset : (line.set source false).assertions + (line.isAsserting source).toNat =
        line.assertions := by
      cases hr : line.request? source with
      | none =>
        unfold isAsserting
        rw [set_of_request?_eq_none hr, hr]
        rfl
      | some before =>
        unfold isAsserting
        rw [hr]
        cases before <;> exact assertions_set hr false
    refine ⟨(line.request?_disconnect source source).trans (if_pos rfl), ?_⟩
    have hcounts : (line.disconnect source).Counts := h.apply (.disconnect source)
    rw [hcounts.toNat_count (by rw [assertions_disconnect]; omega), h.toNat_count (by omega),
      assertions_disconnect, hset]
  others a _ hc hne := request?_apply_of_ne hc hne

/-! ### What a history leaves behind -/

/-- Only sources that are connected act. -/
def Possible (acts : List LineAct) : Prop :=
  ∀ j (h : j < acts.length), ∀ source ∈ acts[j].source?,
    (new.after (acts.take j)).isConnected source = true

instance (acts : List LineAct) : Decidable (Possible acts) :=
  inferInstanceAs (Decidable (∀ j (h : j < acts.length), ∀ source ∈ acts[j].source?,
    (new.after (acts.take j)).isConnected source = true))

/-- The acts of one source, in order. -/
def own (acts : List LineAct) (source : SourceId) : List LineAct :=
  acts.filter fun a => a.source? == some source

/-- The request that a source is left with by its last act, or by being connected. -/
def lastRequest (acts : List LineAct) (source : SourceId) : Option Bool :=
  match (own acts source).getLast? with
  | some a => a.request?
  | none => if source ≤ acts.count .connect then some false else none

theorem possible_append_singleton {acts : List LineAct} {a : LineAct} :
    Possible (acts ++ [a]) ↔ Possible acts ∧
      ∀ source ∈ a.source?, (new.after acts).isConnected source = true := by
  constructor
  · intro h
    refine ⟨fun j hlt source hs => ?_, fun source hs => ?_⟩
    · have hj := h j (by rw [List.length_append]; omega) source
        (by rwa [List.getElem_append_left hlt])
      rwa [List.take_append_of_le_length (Nat.le_of_lt hlt)] at hj
    · have hlast := h acts.length (by simp) source (by simpa using hs)
      rwa [List.take_left] at hlast
  · rintro ⟨h, hlast⟩ j hj source hs
    rcases Nat.lt_or_ge j acts.length with hlt | hge
    · rw [List.getElem_append_left hlt] at hs
      rw [List.take_append_of_le_length (Nat.le_of_lt hlt)]
      exact h j hlt source hs
    · obtain rfl : j = acts.length := by
        rw [List.length_append, List.length_singleton] at hj
        omega
      rw [List.take_left]
      exact hlast source (by simpa using hs)

theorem size_apply (line : InterruptLine) (a : LineAct) :
    (a.apply line).requests.size = line.requests.size + [a].count .connect := by
  cases a with
  | connect => exact Array.size_push _
  | set source asserted => exact line.size_set source asserted
  | disconnect source =>
    unfold LineAct.apply disconnect
    dsimp only
    rw [Array.size_setIfInBounds]
    exact line.size_set source false

theorem size_after (acts : List LineAct) :
    (new.after acts).requests.size = acts.count .connect + 1 := by
  induction acts using List.reverseRecOn with
  | nil => rfl
  | append_singleton acts a ih =>
    rw [after_append_singleton, size_apply, ih, List.count_append]
    omega

/-- Whoever has acted has been connected before. -/
theorem Possible.le_count {acts : List LineAct} (h : Possible acts) {source : SourceId}
    (hs : own acts source ≠ []) : source ≤ acts.count .connect := by
  obtain ⟨a, ha⟩ := List.exists_mem_of_ne_nil _ hs
  obtain ⟨hmem, hsource⟩ := List.mem_filter.mp ha
  obtain ⟨j, hj, rfl⟩ := List.mem_iff_getElem.mp hmem
  obtain ⟨asserted, hr⟩ := isConnected_iff.mp (h j hj source (beq_iff_eq.mp hsource))
  have hlt := lt_size_of_request? hr
  rw [size_after] at hlt
  have hle := (List.take_sublist j acts).count_le .connect
  exact Nat.le_of_lt_succ (Nat.lt_of_lt_of_le hlt (Nat.succ_le_succ hle))

theorem own_append_singleton (acts : List LineAct) (a : LineAct) (source : SourceId) :
    own (acts ++ [a]) source =
      own acts source ++ if a.source? = some source then [a] else [] := by
  unfold own
  rw [List.filter_append]
  by_cases h : a.source? = some source <;> simp [h]

theorem lastRequest_append_of_own {a : LineAct} {source : SourceId} (h : a.source? = some source)
    (acts : List LineAct) : lastRequest (acts ++ [a]) source = a.request? := by
  unfold lastRequest
  rw [own_append_singleton, if_pos h, List.getLast?_concat]

theorem lastRequest_append_of_ne {a : LineAct} {source : SourceId} (h : a.source? ≠ some source)
    (ha : a ≠ .connect) (acts : List LineAct) :
    lastRequest (acts ++ [a]) source = lastRequest acts source := by
  have hcount : (acts ++ [a]).count .connect = acts.count .connect := by
    rw [List.count_append, List.count_singleton, if_neg (by simpa using ha), Nat.add_zero]
  unfold lastRequest
  rw [own_append_singleton, if_neg h, List.append_nil, hcount]

/-- To connect one source more concerns only that source. -/
theorem lastRequest_append_connect {acts : List LineAct} (h : Possible acts) (source : SourceId) :
    lastRequest (acts ++ [.connect]) source =
      if source = acts.count .connect + 1 then some false else lastRequest acts source := by
  have hcount : (acts ++ [LineAct.connect]).count .connect = acts.count .connect + 1 := by
    rw [List.count_append]
    rfl
  unfold lastRequest
  rw [own_append_singleton, if_neg (by rintro ⟨⟩), List.append_nil, hcount]
  cases hl : (own acts source).getLast? with
  | some a =>
    have hle := h.le_count (List.ne_nil_of_mem (List.mem_of_getLast? hl))
    exact (if_neg (Nat.ne_of_lt (Nat.lt_succ_of_le hle))).symm
  | none =>
    by_cases he : source = acts.count .connect + 1
    · rw [if_pos he]
      exact if_pos (Nat.le_of_eq he)
    · rw [if_neg he]
      refine if_congr ⟨fun hle => ?_, Nat.le_succ_of_le⟩ rfl rfl
      exact Nat.le_of_lt_succ (Nat.lt_of_le_of_ne hle he)

/-- **What a history leaves a source with** is what the source itself has done last. -/
theorem request?_after {acts : List LineAct} (h : Possible acts) (source : SourceId) :
    (new.after acts).request? source = lastRequest acts source := by
  induction acts using List.reverseRecOn with
  | nil =>
    unfold lastRequest
    cases source <;> rfl
  | append_singleton acts a ih =>
    obtain ⟨hpossible, hlast⟩ := possible_append_singleton.mp h
    have hbefore := ih hpossible
    rw [after_append_singleton]
    by_cases ha : a = .connect
    · subst ha
      rw [lastRequest_append_connect hpossible, ← hbefore, ← size_after]
      exact request?_connect _ source
    · rw [request?_apply _ ha]
      by_cases hs : a.source? = some source
      · rw [lastRequest_append_of_own hs, if_pos ⟨hs, hlast source hs⟩]
      · rw [lastRequest_append_of_ne hs ha, ← hbefore, if_neg fun hc => hs hc.1]

theorem ext_of_request? {line line' : InterruptLine} (h : line.Counts) (h' : line'.Counts)
    (hsize : line.requests.size = line'.requests.size)
    (hrequest : ∀ source, line.request? source = line'.request? source) : line = line' := by
  have hrequests : line.requests = line'.requests := by
    refine Array.ext hsize fun i hi hi' => ?_
    have := hrequest i
    unfold request? at this
    rwa [Array.getElem?_eq_getElem hi, Array.getElem?_eq_getElem hi'] at this
  have hcount : line.count = line'.count := by
    unfold Counts assertions at h h'
    rw [h, h', hrequests]
  rcases line with ⟨count, requests⟩
  rcases line' with ⟨count', requests'⟩
  cases hrequests
  cases hcount
  rfl

/-- **The order of different sources does not matter**: histories with as many connections, in which
each source does the same last, lead to the same line. -/
theorem after_congr {acts acts' : List LineAct} (h : Possible acts) (h' : Possible acts')
    (hcount : acts.count .connect = acts'.count .connect)
    (hlast : ∀ source, (own acts source).getLast? = (own acts' source).getLast?) :
    new.after acts = new.after acts' := by
  refine ext_of_request? (counts_after acts) (counts_after acts') ?_ fun source => ?_
  · rw [size_after, size_after, hcount]
  · rw [request?_after h, request?_after h']
    unfold lastRequest
    rw [hlast, hcount]

/-- **The sources of a line are joined by a disjunction** after every history that leaves fewer than
`UInt32.size` of them, and what the history leaves behind depends on what each source did last. -/
theorem wiredOr_after {acts : List LineAct} (h : (new.after acts).connections < UInt32.size) :
    (new.after acts).WiredOr ∧
      (Possible acts →
        (∀ source, (new.after acts).request? source = lastRequest acts source) ∧
        ∀ acts', Possible acts' → acts'.count .connect = acts.count .connect →
          (∀ source, (own acts' source).getLast? = (own acts source).getLast?) →
          new.after acts' = new.after acts) :=
  ⟨(counts_after acts).wiredOr h, fun hp =>
    ⟨request?_after hp, fun _ hp' hcount hlast => after_congr hp' hp hcount hlast⟩⟩

/-- Two sources raise the line and the first lowers it again; where the second had been connected before
the first one acted, the line is the same. -/
theorem wiredOr_after_two_sources :
    let acts := [.connect, .set 1 true, .connect, .set 2 true, .set 1 false]
    (new.after acts).connections < UInt32.size ∧ Possible acts ∧ (new.after acts).isRaised = true ∧
      new.after [.connect, .connect, .set 2 true, .set 1 true, .set 1 false] = new.after acts := by
  obtain ⟨hline, hlast⟩ := wiredOr_after (show (new.after
    [.connect, .set 1 true, .connect, .set 2 true, .set 1 false]).connections < UInt32.size by decide)
  refine ⟨by decide, by decide, hline.isRaised_iff.mpr ⟨2, by decide⟩, ?_⟩
  refine (hlast (by decide)).2 _ (by decide) (by decide) fun source => ?_
  unfold own
  rcases source with _ | _ | _ | source <;> rfl

end InterruptLine

end Nmos6502
