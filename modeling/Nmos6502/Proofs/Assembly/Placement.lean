import Nmos6502.Proofs.Assembly.Inlining
import Nmos6502.Proofs.Assembly.Layout

/-!
# The same lines in another place

A statement that is moved to another address and another line stays as it is (`Statement.encode_moved`),
unless it is a branch whose operand is an address (`Statement.namesTarget`): that one must not move. If
the labels move along, then the offset of a branch to a label stays, and the address that is filled in
moves with the label (`Statement.Resolves.moved`).

For lines this means: the lines of a program can be placed anywhere, all at once (`Site.placed`), and one
behind the other (`Site.ofLines_append`). What a source text assembles to depends on these places only
(`Program.assemble_eq_ok_iff_isAssembled`).
-/

namespace Nmos6502

/-! ### Branches -/

theorem branchTarget_add (position shift : UInt16) (offset : UInt8) :
    branchTarget (position + shift) offset = branchTarget position offset + shift := by
  unfold branchTarget
  ac_rfl

/-- The offset of a branch depends on the distance only. -/
theorem branchOffset_add_eq_ok_iff {position target : UInt16} (shift : UInt16) {offset : UInt8} :
    branchOffset (position + shift) (target + shift) = .ok offset ↔
      branchOffset position target = .ok offset := by
  rw [branchOffset_eq_ok_iff, branchOffset_eq_ok_iff, branchTarget_add, UInt16.add_left_inj]

/-- The labels that have an address have one that is further on by a distance. -/
def Symbols.MovesTo (symbols symbols' : Symbols) (shift : UInt16) : Prop :=
  ∀ name target, symbols.resolve? name = some target →
    symbols'.resolve? name = some (target + shift)

namespace Statement

/-! ### Statements -/

/-- Whether a statement is a branch whose operand is the address of its target. -/
def namesTarget (mnemonic operand : List Char) : Bool :=
  (Instruction.ofMnemonic? mnemonic).any Instruction.isBranch &&
    (AddressingMode.absolute.parse? operand).isSome

/-- The statement further on in memory and in the text. -/
def moved (shift : UInt16) (lines : Nat) (s : Statement) : Statement :=
  { s with position := s.position + shift, line := s.line + lines }

variable {i : Instruction} {mnemonic operand : List Char} {position shift : UInt16}
  {line lines : Nat} {s : Statement} {symbols symbols' : Symbols}

theorem ofBranch_moved
    (h : shift = 0 ∨ AddressingMode.absolute.parse? operand = none) :
    ofBranch i operand (position + shift) (line + lines) =
      (ofBranch i operand position line).map (moved shift lines) := by
  unfold ofBranch
  cases i.opcode? .relative with
  | none => rfl
  | some op =>
    cases AddressingMode.relative.parse? operand with
    | some offset => rfl
    | none =>
      cases htarget : AddressingMode.absolute.parse? operand with
      | none =>
        dsimp only
        split <;> rfl
      | some target =>
        obtain rfl : shift = 0 := h.resolve_right (by simp [htarget])
        rw [UInt16.add_zero]
        dsimp only
        cases branchOffset position (word (target.getD 0 0) (target.getD 1 0)) with
        | error problem => rfl
        | ok offset => simp [Except.map, moved]

theorem ofInstruction_moved
    (h : shift = 0 ∨ ¬ (i.isBranch = true ∧ AddressingMode.absolute.parse? operand ≠ none)) :
    ofInstruction i operand (position + shift) (line + lines) =
      (ofInstruction i operand position line).map (moved shift lines) := by
  unfold ofInstruction
  split
  · next hb =>
    refine ofBranch_moved (h.imp_right fun hn => ?_)
    by_contra hne
    exact hn ⟨hb, hne⟩
  · split <;> rfl

theorem ofByteDirective_moved : ofByteDirective operand (position + shift) (line + lines) =
    (ofByteDirective operand position line).map (moved shift lines) := by
  unfold ofByteDirective
  split
  · rfl
  · cases values (pieces ',' operand) <;> rfl

/-- **A moved statement** stays as it is, unless it is a branch to a fixed address. -/
theorem encode_moved (h : shift = 0 ∨ namesTarget mnemonic operand = false) :
    encode mnemonic operand (position + shift) (line + lines) =
      (encode mnemonic operand position line).map (moved shift lines) := by
  unfold encode
  split
  · split
    · exact ofByteDirective_moved
    · rfl
  · cases hi : Instruction.ofMnemonic? mnemonic with
    | none => rfl
    | some i =>
      refine ofInstruction_moved (h.imp_right fun hn => ?_)
      rintro ⟨hb, habsolute⟩
      simp [namesTarget, hi, hb, Option.isNone_iff_eq_none, habsolute] at hn

/-- The label whose address enters a statement as a word. -/
def wordLabel? (s : Statement) : Option (List Char) :=
  match s.label with
  | some (name, .absolute) => some name
  | _ => none

/-- A word that is filled in. -/
def withWord (s : Statement) (target : UInt16) : List UInt8 :=
  (s.bytes.set 1 (lowByte target)).set 2 (highByte target)

theorem wordLabel?_eq_some_iff {name : List Char} :
    s.wordLabel? = some name ↔ s.label = some (name, .absolute) := by
  unfold wordLabel?
  split
  · next name' h => simp [h]
  · next h => exact ⟨fun hn => absurd hn (Option.some_ne_none name).symm, fun hl => absurd hl (h name)⟩

theorem resolve_of_wordLabel? {name : List Char} {target : UInt16} (hl : s.wordLabel? = some name)
    (ht : symbols.resolve? name = some target) :
    s.Resolves symbols ∧ (s.filled symbols).bytes = s.withWord target := by
  have hlabel := wordLabel?_eq_some_iff.mp hl
  have hresolve : s.resolve symbols = .ok { s with bytes := s.withWord target } := by
    rw [resolve_of_label hlabel ht]
    unfold patch
    simp only [hlabel]
    rfl
  exact ⟨⟨_, hresolve⟩, by rw [filled_of_resolve hresolve]; rfl⟩

theorem resolve_of_offset {name : List Char} {target : UInt16} {offset : UInt8}
    (hl : s.label = some (name, .relative)) (ht : symbols.resolve? name = some target)
    (ho : branchOffset s.position target = .ok offset) :
    s.Resolves symbols ∧ (s.filled symbols).bytes = s.bytes.set 1 offset := by
  have hresolve : s.resolve symbols = .ok { s with bytes := s.bytes.set 1 offset } := by
    rw [resolve_of_label hl ht]
    unfold patch
    simp only [hl, ho]
    rfl
  exact ⟨⟨_, hresolve⟩, by rw [filled_of_resolve hresolve]; rfl⟩

/-- A statement whose label has an address waits for a word or is a branch that reaches it. -/
theorem Resolves.exists_offset {name : List Char} (h : s.Resolves symbols)
    (hl : s.label = some (name, .relative)) : ∃ target offset,
      symbols.resolve? name = some target ∧ branchOffset s.position target = .ok offset := by
  obtain ⟨target, s', ht, hpatch, -⟩ := h.exists_target hl
  unfold patch at hpatch
  simp only [hl] at hpatch
  cases ho : branchOffset s.position target with
  | error problem =>
    rw [ho] at hpatch
    cases hpatch
  | ok offset => exact ⟨target, offset, ht, ho⟩

/-- **A moved statement whose label moves along** keeps its bytes, but for the word that it takes from
its label. -/
theorem Resolves.moved (h : s.Resolves symbols) (hmoves : symbols.MovesTo symbols' shift)
    (lines : Nat) : (s.moved shift lines).Resolves symbols' ∧
      (s.wordLabel? = none →
        ((s.moved shift lines).filled symbols').bytes = (s.filled symbols).bytes) ∧
      ∀ name, s.wordLabel? = some name → ∃ target, symbols.resolve? name = some target ∧
        (s.filled symbols).bytes = s.withWord target ∧
        ((s.moved shift lines).filled symbols').bytes = s.withWord (target + shift) := by
  cases hl : s.label with
  | none =>
    have hword : s.wordLabel? = none := by
      unfold wordLabel?
      rw [hl]
    have hl' : (s.moved shift lines).label = none := hl
    refine ⟨⟨_, resolve_of_label_eq_none hl'⟩, fun _ => ?_, fun name hn => ?_⟩
    · rw [filled_of_label_eq_none hl, filled_of_label_eq_none hl']
      rfl
    · rw [hword] at hn
      cases hn
  | some reference =>
    obtain ⟨name, kind⟩ := reference
    cases kind with
    | absolute =>
      have hword : s.wordLabel? = some name := wordLabel?_eq_some_iff.mpr hl
      have hword' : (s.moved shift lines).wordLabel? = some name := hword
      obtain ⟨target, -, ht, -, -⟩ := h.exists_target hl
      obtain ⟨-, hbytes⟩ := resolve_of_wordLabel? hword ht
      obtain ⟨hresolves, hbytes'⟩ := resolve_of_wordLabel? hword' (hmoves name target ht)
      refine ⟨hresolves, fun hn => ?_, fun name' hn => ?_⟩
      · rw [hword] at hn
        cases hn
      · rw [hword] at hn
        cases hn
        exact ⟨target, ht, hbytes, hbytes'⟩
    | relative =>
      have hword : s.wordLabel? = none := by
        unfold wordLabel?
        rw [hl]
      have hl' : (s.moved shift lines).label = some (name, .relative) := hl
      obtain ⟨target, offset, ht, ho⟩ := h.exists_offset hl
      have ho' := (branchOffset_add_eq_ok_iff shift).mpr ho
      obtain ⟨-, hbytes⟩ := resolve_of_offset hl ht ho
      obtain ⟨hresolves, hbytes'⟩ := resolve_of_offset hl' (hmoves name target ht) ho'
      refine ⟨hresolves, fun _ => hbytes'.trans hbytes.symm, fun name' hn => ?_⟩
      rw [hword] at hn
      cases hn

end Statement

/-! ### Lines -/

/-- Whether a line has a branch whose operand is the address of its target. -/
def Line.namesTarget (line : Line) : Bool :=
  line.mnemonic.any fun mnemonic => Statement.namesTarget mnemonic line.operand

namespace Site

/-- The line further on in memory and in the text. -/
def placed (position number : Nat) (site : Site) : Site :=
  ⟨site.line, position + site.position, number + site.number⟩

theorem ofLines_add (position number p n : Nat) (lines : List Line) :
    ofLines (position + p) (number + n) lines = (ofLines p n lines).map (placed position number) := by
  induction lines generalizing p n with
  | nil => rfl
  | cons line rest ih =>
    rw [ofLines, ofLines, List.map_cons, Nat.add_assoc, Nat.add_assoc, ih]
    rfl

/-- Lines where they stand, as lines that begin at zero and are placed all at once. -/
theorem ofLines_eq_map_placed (position number : Nat) (lines : List Line) :
    ofLines position number lines = (ofLines 0 0 lines).map (placed position number) :=
  ofLines_add position number 0 0 lines

theorem ofLines_append (position number : Nat) (lines lines' : List Line) :
    ofLines position number (lines ++ lines') = ofLines position number lines ++
      ofLines (position + (lines.map Line.width).sum) (number + lines.length) lines' := by
  induction lines generalizing position number with
  | nil => rfl
  | cons line rest ih =>
    rw [List.cons_append, ofLines, ofLines, ih, List.map_cons, List.sum_cons, List.length_cons,
      Nat.add_assoc, Nat.add_assoc, Nat.add_comm 1 rest.length]
    rfl

/-- A line ends before the lines end. -/
theorem end_le_of_mem_ofLines {position number : Nat} {lines : List Line} {site : Site}
    (h : site ∈ ofLines position number lines) :
    site.position + site.line.width ≤ position + (lines.map Line.width).sum := by
  induction lines generalizing position number with
  | nil => cases h
  | cons line rest ih =>
    rw [List.map_cons, List.sum_cons]
    rw [ofLines] at h
    rcases List.mem_cons.mp h with rfl | h
    · dsimp only
      omega
    · have := ih h
      omega

variable {site : Site} {origin origin' : UInt16} (number lines : Nat)

theorem ofNat_placed (origin origin' : UInt16) (k : Nat) : UInt16.ofNat (origin'.toNat + k) =
    UInt16.ofNat (origin.toNat + k) + (origin' - origin) := by
  rw [UInt16.ofNat_add, UInt16.ofNat_add, UInt16.ofNat_toNat, UInt16.ofNat_toNat,
    UInt16.add_comm origin, UInt16.add_assoc, UInt16.add_comm origin, UInt16.sub_add_cancel,
    UInt16.add_comm]

theorem encode_placed {mnemonic : List Char} (hm : site.line.mnemonic = some mnemonic)
    (h : origin' = origin ∨ site.line.namesTarget = false) :
    Statement.encode mnemonic site.line.operand (UInt16.ofNat (origin'.toNat + site.position))
        (number + lines + site.number) =
      (Statement.encode mnemonic site.line.operand (UInt16.ofNat (origin.toNat + site.position))
        (number + site.number)).map (Statement.moved (origin' - origin) lines) := by
  rw [ofNat_placed origin origin', Nat.add_right_comm number lines]
  refine Statement.encode_moved (h.imp (fun heq => ?_) fun hn => ?_)
  · rw [heq, UInt16.sub_self]
  · unfold Line.namesTarget at hn
    simpa [hm] using hn

/-- The statement of a line moves with the line. -/
theorem statement?_placed (h : origin' = origin ∨ site.line.namesTarget = false) :
    (site.placed origin'.toNat (number + lines)).statement? =
      ((site.placed origin.toNat number).statement?).map
        (Statement.moved (origin' - origin) lines) := by
  unfold statement? placed
  dsimp only
  cases hm : site.line.mnemonic with
  | none => rfl
  | some mnemonic =>
    rw [Option.bind_some, Option.bind_some, encode_placed number lines hm h]
    cases Statement.encode mnemonic site.line.operand (UInt16.ofNat (origin.toNat + site.position))
      (number + site.number) <;> rfl

/-- A line that fits somewhere fits elsewhere, if memory does not end before it does. -/
theorem Fits.placed (hfits : (site.placed origin.toNat number).Fits)
    (h : origin' = origin ∨ site.line.namesTarget = false)
    (hlabel : site.line.label ≠ none → origin'.toNat + site.position < memorySize)
    (hend : site.line.mnemonic ≠ none →
      origin'.toNat + site.position + site.line.width ≤ memorySize) :
    (site.placed origin'.toNat (number + lines)).Fits := by
  refine ⟨fun name hn => ?_, fun mnemonic hm => ?_⟩
  · change site.line.label = some name at hn
    exact ⟨(hfits.label name hn).1, hlabel (by rw [hn]; exact Option.some_ne_none name)⟩
  · change site.line.mnemonic = some mnemonic at hm
    obtain ⟨-, s, hs⟩ := hfits.statement mnemonic hm
    have hmap := congrArg (Except.map (Statement.moved (origin' - origin) lines)) hs
    exact ⟨hend (by rw [hm]; exact Option.some_ne_none mnemonic), s.moved (origin' - origin) lines,
      (encode_placed number lines hm h).trans hmap⟩

/-- A line that fits fits further on in the text. -/
theorem Fits.further (hfits : (site.placed origin.toNat number).Fits) :
    (site.placed origin.toNat (number + lines)).Fits := by
  refine hfits.placed number lines (Or.inl rfl) (fun hl => ?_) fun hm => ?_
  · obtain ⟨name, hn⟩ := Option.ne_none_iff_exists'.mp hl
    exact (hfits.label name hn).2
  · obtain ⟨mnemonic, hm⟩ := Option.ne_none_iff_exists'.mp hm
    exact (hfits.statement mnemonic hm).1

variable {symbols symbols' : Symbols}

/-- The statement of a line resolves elsewhere if the labels move along. -/
theorem resolves_placed (h : origin' = origin ∨ site.line.namesTarget = false)
    (hmoves : symbols.MovesTo symbols' (origin' - origin))
    (hresolves : ∀ s ∈ (site.placed origin.toNat number).statement?, s.Resolves symbols) :
    ∀ s ∈ (site.placed origin'.toNat (number + lines)).statement?, s.Resolves symbols' := by
  rw [statement?_placed number lines h]
  intro s' hs'
  obtain ⟨s, hs, rfl⟩ := Option.map_eq_some_iff.mp hs'
  exact ((hresolves s hs).moved hmoves lines).1

/-- The bytes of a line stay elsewhere if the labels move along, but for a word taken from a label. -/
theorem code_placed (h : origin' = origin ∨ site.line.namesTarget = false)
    (hmoves : symbols.MovesTo symbols' (origin' - origin))
    (hresolves : ∀ s ∈ (site.placed origin.toNat number).statement?, s.Resolves symbols)
    (hword : ∀ s ∈ (site.placed origin.toNat number).statement?, s.wordLabel? = none) :
    (site.placed origin'.toNat (number + lines)).code symbols' =
      (site.placed origin.toNat number).code symbols := by
  unfold code
  rw [statement?_placed number lines h]
  cases hs : (site.placed origin.toNat number).statement? with
  | none => rfl
  | some s => exact ((hresolves s hs).moved hmoves lines).2.1 (hword s hs)

/-- The bytes of a line stay if it only goes further in the text. -/
theorem code_placed_self (hmoves : symbols.MovesTo symbols' 0)
    (hresolves : ∀ s ∈ (site.placed origin.toNat number).statement?, s.Resolves symbols) :
    (site.placed origin.toNat (number + lines)).code symbols' =
      (site.placed origin.toNat number).code symbols := by
  unfold code
  rw [statement?_placed number lines (Or.inl rfl), UInt16.sub_self]
  cases hs : (site.placed origin.toNat number).statement? with
  | none => rfl
  | some s =>
    obtain ⟨-, hsame, hword⟩ := (hresolves s hs).moved hmoves lines
    cases hl : s.wordLabel? with
    | none => exact hsame hl
    | some name =>
      obtain ⟨target, -, hbytes, hbytes'⟩ := hword name hl
      rw [UInt16.add_zero] at hbytes'
      exact hbytes'.trans hbytes.symm

end Site

/-! ### Programs -/

/-- In a program with the given symbols, the lines that stand from `position` on define the labels `own`
and have the given bytes. -/
structure LinesMake (symbols : Symbols) (position number : Nat) (lines : List Line)
    (own : List Symbol) (bytes : List UInt8) : Prop where
  fits : ∀ site ∈ Site.ofLines position number lines, site.Fits
  own_eq : own = (Site.ofLines position number lines).filterMap Site.symbol?
  resolves : ∀ s ∈ (Site.ofLines position number lines).filterMap Site.statement?,
    s.Resolves symbols
  bytes_eq : bytes = (Site.ofLines position number lines).flatMap (Site.code symbols)

theorem LinesMake.length_bytes {symbols : Symbols} {position number : Nat} {lines : List Line}
    {own : List Symbol} {bytes : List UInt8} (h : LinesMake symbols position number lines own bytes) :
    bytes.length = (lines.map Line.width).sum := by
  rw [h.bytes_eq, Site.length_flatMap_code _ h.fits, Site.map_line_ofLines]

namespace Program

/-- The program is what some lines assemble to. -/
structure IsAssembled (program : Program) (lines : List Line) : Prop where
  make : LinesMake program.symbols program.origin.toNat 1 lines program.symbols.toList program.bytes
  nodup : (program.symbols.toList.map Symbol.name).Nodup

/-- **Assembling** a source text depends on what its lines are, and succeeds if they fit where they stand,
define no name twice and wait for labels that have an address in reach. -/
theorem assemble_eq_ok_iff_isAssembled {origin : UInt16} {source : List Char} {program : Program} :
    assemble origin source = .ok program ↔
      program.origin = origin ∧ program.IsAssembled ((lines source).map Line.parse) := by
  have hempty : (Symbols.empty.toList.map Symbol.name).Nodup := List.nodup_nil
  rw [assemble_eq_ok_iff]
  constructor
  · rintro ⟨layout, bytes, hlines, hlink, rfl⟩
    obtain ⟨hresolves, rfl⟩ := Statement.link_eq_ok_iff.mp hlink
    obtain ⟨hfits, hnodup, rfl⟩ := (Layout.ofLines_eq_ok_iff hempty).mp hlines
    exact ⟨rfl, ⟨hfits, rfl, hresolves, (Site.flatMap_code _ _).symm⟩, hnodup⟩
  · rintro ⟨rfl, h⟩
    have hsymbols : program.symbols =
        ⟨(program.sites ((lines source).map Line.parse)).filterMap Site.symbol?⟩ :=
      congrArg Symbols.mk h.make.own_eq
    have hnodup := h.nodup
    have hlink : Statement.link program.symbols (lines source)
        ((program.sites ((lines source).map Line.parse)).filterMap Site.statement?) =
          .ok program.bytes :=
      Statement.link_eq_ok_iff.mpr
        ⟨h.make.resolves, h.make.bytes_eq.trans (Site.flatMap_code _ _)⟩
    rw [hsymbols] at hnodup hlink
    exact ⟨_, _, (Layout.ofLines_eq_ok_iff hempty).mpr ⟨h.make.fits, hnodup, rfl⟩, hlink,
      congrArg (Program.mk program.origin program.bytes) hsymbols⟩

theorem IsAssembled.laidOut {program : Program} {lines : List Line}
    (h : program.IsAssembled lines) : program.IsLaidOut lines :=
  isLaidOut_of_fits h.make.fits h.make.own_eq h.nodup h.make.bytes_eq h.make.resolves

end Program

end Nmos6502
