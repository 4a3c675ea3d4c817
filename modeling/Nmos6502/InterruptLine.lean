/-!
# Interrupt lines

A line that several sources hold together: it is raised as long as one of them asserts it. Each source
has its own request, which it alone changes, and a source that is disconnected takes its request with
it. The line keeps the number of asserting sources, so that looking whether it is raised does not
depend on how many there are; `set` and `disconnect` change that number by what they change in the
requests.
-/

namespace Nmos6502

/-- The place of a source among the sources of a line. -/
abbrev SourceId := Nat

/-- A line with the requests of its sources. -/
structure InterruptLine where
  /-- How many sources assert the line. -/
  count : UInt32
  /-- The request of each source, in the order in which they were connected; none once a source is
  disconnected. -/
  requests : Array (Option Bool)
  deriving DecidableEq, Repr

namespace InterruptLine

/-- The source that a line has from the beginning. -/
def owner : SourceId := 0

/-- A released line with its owner as the only source. -/
def new : InterruptLine := ⟨0, #[some false]⟩

/-- Whether the line is asserted by any source. -/
def isRaised (line : InterruptLine) : Bool :=
  line.count != 0

/-- The request of a source, if it is connected. -/
def request? (line : InterruptLine) (source : SourceId) : Option Bool :=
  line.requests[source]?.join

/-- Whether a source asserts the line. -/
def isAsserting (line : InterruptLine) (source : SourceId) : Bool :=
  line.request? source == some true

/-- Whether a source is connected. -/
def isConnected (line : InterruptLine) (source : SourceId) : Bool :=
  (line.request? source).isSome

/-- One source more, which does not assert the line, and the line with it. -/
def connect (line : InterruptLine) : SourceId × InterruptLine :=
  (line.requests.size, { line with requests := line.requests.push (some false) })

/-- The line after a source has set its request. A source that is not connected has none to set. -/
def set (line : InterruptLine) (source : SourceId) (asserted : Bool) : InterruptLine :=
  match line.request? source with
  | none => line
  | some before =>
    if before = asserted then line
    else
      ⟨if asserted then line.count + 1 else line.count - 1,
        line.requests.setIfInBounds source (some asserted)⟩

/-- The line without one of its sources. -/
def disconnect (line : InterruptLine) (source : SourceId) : InterruptLine :=
  let line := line.set source false
  { line with requests := line.requests.setIfInBounds source none }

/-- What a source sees of its line, in text. -/
def text (line : InterruptLine) (source : SourceId) : String :=
  "InterruptLine \x7b raised: " ++ toString line.isRaised ++ ", asserting: " ++
    toString (line.isAsserting source) ++ " \x7d"

theorem lt_size_of_request? {line : InterruptLine} {source : SourceId} {asserted : Bool}
    (h : line.request? source = some asserted) : source < line.requests.size := by
  rcases Nat.lt_or_ge source line.requests.size with hlt | hge
  · exact hlt
  · simp [request?, Array.getElem?_eq_none hge] at h

/-- Replacing the request of a source leaves those of the others. -/
theorem join_getElem?_setIfInBounds {line : InterruptLine} {source : SourceId}
    (h : source < line.requests.size) (other : SourceId) (request : Option Bool) :
    (line.requests.setIfInBounds source request)[other]?.join =
      if other = source then request else line.request? other := by
  rw [Array.getElem?_setIfInBounds]
  by_cases ho : other = source
  · subst ho
    simp [h]
  · simp [request?, ho, Ne.symm ho]

/-- A source has the request that it set, and the other sources keep theirs. -/
theorem request?_set (line : InterruptLine) (source other : SourceId) (asserted : Bool) :
    (line.set source asserted).request? other =
      if other = source ∧ line.isConnected source = true then some asserted
      else line.request? other := by
  rw [isConnected, set]
  cases hr : line.request? source with
  | none => simp
  | some before =>
    by_cases h : before = asserted
    · subst h
      by_cases ho : other = source <;> simp [ho, hr]
    · simp only [if_neg h, Option.isSome_some, and_true]
      exact join_getElem?_setIfInBounds (lt_size_of_request? hr) other _

/-- A disconnected source has no request, and the other sources keep theirs. -/
theorem request?_disconnect (line : InterruptLine) (source other : SourceId) :
    (line.disconnect source).request? other =
      if other = source then none else line.request? other := by
  have hset := request?_set line source other false
  rw [disconnect, request?, Array.getElem?_setIfInBounds]
  by_cases h : other = source
  · subst h
    by_cases hlt : other < (line.set other false).requests.size <;> simp [hlt]
  · simpa [h, Ne.symm h, request?] using hset

end InterruptLine

/-- The two interrupt lines of a processor. -/
structure InterruptLines where
  nmi : InterruptLine
  irq : InterruptLine
  deriving DecidableEq, Repr

/-- Two released lines. -/
def InterruptLines.new : InterruptLines := ⟨.new, .new⟩

end Nmos6502
