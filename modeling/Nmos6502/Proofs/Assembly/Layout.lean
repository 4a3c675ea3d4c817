import Mathlib.Algebra.GroupWithZero.Nat
import Mathlib.Data.List.Nodup
import Nmos6502.Proofs.Assembly.LiteralOperands

/-!
# Where the lines of a program stand

How many bytes a line has can be told from the line alone (`Line.width`). Every line therefore has a
place before any label has an address: the origin and the widths of the lines before it (`Site.ofLines`).
The first pass succeeds exactly when each line fits where it stands and no name is defined twice, and
it finds the statements and the labels that stand there (`Layout.ofLines_eq_ok_iff`).

`Program.isLaidOut` says what follows for an assembled program: its bytes are those of its lines one
after the other, each label stands for the place of its line, and no address is cut off.
-/

namespace Nmos6502

namespace Statement

/-! ### The width of a statement -/

/-- The number of bytes of a statement that names an instruction. Where the operand is not a literal it
is a label, whose address takes two bytes, or one if the statement is a branch. -/
def instructionWidth (i : Instruction) (operand : List Char) : Nat :=
  if i.isBranch then AddressingMode.relative.size
  else
    match literal? i (operand.map Char.toUpper) AddressingMode.all with
    | some (op, _) => op.size
    | none => AddressingMode.absolute.size

/-- The number of bytes of a statement, told from its mnemonic and its operand. -/
def width (mnemonic operand : List Char) : Nat :=
  match mnemonic with
  | '.' :: _ => (pieces ',' operand).length
  | _ =>
    match Instruction.ofMnemonic? mnemonic with
    | none => 0
    | some i => instructionWidth i operand

/-- A statement has the position and the line that it was given, and a number of bytes. -/
structure Stands (s : Statement) (position : UInt16) (line width : Nat) : Prop where
  position_eq : s.position = position
  line_eq : s.line = line
  length_bytes : s.bytes.length = width

variable {i : Instruction} {mnemonic operand : List Char} {position : UInt16} {line : Nat}
  {s : Statement}

theorem stands_ofBranch (h : ofBranch i operand position line = .ok s) :
    s.Stands position line AddressingMode.relative.size := by
  obtain ⟨op, -, ⟨offset, -, rfl⟩ | ⟨-, ⟨target, offset, -, -, rfl⟩ | ⟨-, -, rfl⟩⟩⟩ := of_ofBranch h <;>
    exact ⟨rfl, rfl, rfl⟩

theorem stands_ofInstruction (h : ofInstruction i operand position line = .ok s) :
    s.Stands position line (instructionWidth i operand) := by
  unfold ofInstruction at h
  unfold instructionWidth
  split at h
  · next hb =>
    rw [if_pos hb]
    exact stands_ofBranch h
  · next hb =>
    rw [if_neg hb]
    split at h
    · next op bytes _ hliteral =>
      cases h
      obtain ⟨-, hbytes⟩ := literal?_eq_some_iff.mp hliteral
      rw [hliteral]
      exact ⟨rfl, rfl, congrArg (· + 1) (AddressingMode.length_of_parse? hbytes)⟩
    · next op name hliteral _ =>
      cases h
      rw [hliteral]
      exact ⟨rfl, rfl, rfl⟩
    · cases h

theorem length_of_values {texts : List (List Char)} {bytes : List UInt8}
    (h : values texts = .ok bytes) : bytes.length = texts.length :=
  (forall₂_of_values h).length_eq.symm

theorem stands_ofByteDirective (h : ofByteDirective operand position line = .ok s) :
    s.Stands position line (pieces ',' operand).length := by
  obtain ⟨bytes, hv, rfl⟩ := of_ofByteDirective h
  exact ⟨rfl, rfl, length_of_values hv⟩

theorem width_of_ofMnemonic? (hdot : ∀ name, mnemonic ≠ '.' :: name)
    (hi : Instruction.ofMnemonic? mnemonic = some i) :
    width mnemonic operand = instructionWidth i operand := by
  unfold width
  split
  · exact absurd rfl (hdot _)
  · rw [hi]

theorem instructionWidth_pos (i : Instruction) (operand : List Char) :
    0 < instructionWidth i operand := by
  unfold instructionWidth
  split
  · exact Nat.succ_pos _
  · split <;> exact Nat.succ_pos _

/-- **The width of a statement** is the number of its bytes, wherever it stands and whatever its
labels stand for. There is at least one. -/
theorem stands_encode (h : encode mnemonic operand position line = .ok s) :
    s.Stands position line (width mnemonic operand) ∧ 0 < width mnemonic operand := by
  unfold encode at h
  split at h
  · split at h
    · exact ⟨stands_ofByteDirective h, List.length_pos_iff.mpr (pieces_ne_nil ',' operand)⟩
    · cases h
  · next hdot =>
    split at h
    · cases h
    · next i hi =>
      rw [width_of_ofMnemonic? hdot hi]
      exact ⟨stands_ofInstruction h, instructionWidth_pos i operand⟩

end Statement

/-! ### The places of lines -/

/-- The number of bytes of a line, told from the line alone. -/
def Line.width (line : Line) : Nat :=
  match line.mnemonic with
  | none => 0
  | some mnemonic => Statement.width mnemonic line.operand

/-- A line where it stands: the address of its first byte, and its number. -/
structure Site where
  line : Line
  position : Nat
  number : Nat
  deriving DecidableEq

namespace Site

/-- Lines where they stand, one after the other, the first of them at `position`. -/
def ofLines (position number : Nat) : List Line → List Site
  | [] => []
  | line :: rest => ⟨line, position, number⟩ :: ofLines (position + line.width) (number + 1) rest

/-- The statement of the line, without the address of its label. -/
def statement? (site : Site) : Option Statement :=
  site.line.mnemonic.bind fun mnemonic =>
    (Statement.encode mnemonic site.line.operand (UInt16.ofNat site.position) site.number).toOption

/-- The symbol that the line defines. -/
def symbol? (site : Site) : Option Symbol :=
  site.line.label.map fun name => ⟨name, UInt16.ofNat site.position, site.number⟩

/-- The bytes of the line, its label's address filled in. -/
def code (symbols : Symbols) (site : Site) : List UInt8 :=
  match site.statement? with
  | none => []
  | some s => (s.filled symbols).bytes

/-- The line can stand where it does: it begins in memory if it has a label, that label is a name, and
the line's statement, if there is one, ends in memory. -/
structure Fits (site : Site) : Prop where
  label : ∀ name, site.line.label = some name →
    Label.isLabel name = true ∧ site.position < memorySize
  statement : ∀ mnemonic, site.line.mnemonic = some mnemonic →
    site.position + site.line.width ≤ memorySize ∧ ∃ s, Statement.encode mnemonic site.line.operand
      (UInt16.ofNat site.position) site.number = .ok s

/-- The line at each place of the list, and what lies before it. -/
theorem getElem?_ofLines (position number : Nat) (lines : List Line) (k : Nat) :
    (ofLines position number lines)[k]? = lines[k]?.map fun line =>
      ⟨line, position + ((lines.take k).map Line.width).sum, number + k⟩ := by
  induction lines generalizing position number k with
  | nil => rfl
  | cons line rest ih =>
    cases k with
    | zero => rfl
    | succ k =>
      rw [ofLines, List.getElem?_cons_succ, ih, List.getElem?_cons_succ, List.take_succ_cons,
        List.map_cons, List.sum_cons, ← Nat.add_assoc, Nat.add_right_comm number 1 k]
      rfl

theorem map_line_ofLines (position number : Nat) (lines : List Line) :
    (ofLines position number lines).map Site.line = lines := by
  induction lines generalizing position number with
  | nil => rfl
  | cons line rest ih => rw [ofLines, List.map_cons, ih]

theorem take_ofLines (position number : Nat) (lines : List Line) (k : Nat) :
    (ofLines position number lines).take k = ofLines position number (lines.take k) := by
  induction lines generalizing position number k with
  | nil => rw [List.take_nil, ofLines, List.take_nil]
  | cons line rest ih =>
    cases k with
    | zero => rfl
    | succ k => rw [ofLines, List.take_succ_cons, List.take_succ_cons, ofLines, ih]

/-- Lines that fit where they stand end in memory. -/
theorem end_le_of_fits {position number : Nat} {lines : List Line} (hp : position ≤ memorySize)
    (h : ∀ site ∈ ofLines position number lines, site.Fits) :
    position + (lines.map Line.width).sum ≤ memorySize := by
  induction lines generalizing position number with
  | nil => exact hp
  | cons line rest ih =>
    rw [ofLines, List.forall_mem_cons] at h
    obtain ⟨hfits, hrest⟩ := h
    have hnext : position + line.width ≤ memorySize := by
      cases hm : line.mnemonic with
      | none =>
        unfold Line.width
        rw [hm]
        exact hp
      | some mnemonic => exact (hfits.statement mnemonic hm).1
    rw [List.map_cons, List.sum_cons, ← Nat.add_assoc]
    exact ih hnext hrest

end Site

/-! ### The first pass -/

namespace Symbols

variable {symbols : Symbols}

theorem find?_eq_none_iff {name : List Char} :
    symbols.find? name = none ↔ name ∉ symbols.toList.map Symbol.name := by
  unfold find?
  simp [List.find?_eq_none]

/-- A symbol is found under its name if no other has that name. -/
theorem find?_eq_some_of_mem (hn : (symbols.toList.map Symbol.name).Nodup) {symbol : Symbol}
    (h : symbol ∈ symbols.toList) : symbols.find? symbol.name = some symbol := by
  cases hf : symbols.find? symbol.name with
  | none => exact absurd (List.mem_map_of_mem h) (find?_eq_none_iff.mp hf)
  | some found =>
    have hname : found.name = symbol.name := by simpa using List.find?_some hf
    have hmem : found ∈ symbols.toList := List.mem_of_find?_eq_some hf
    rw [List.inj_on_of_nodup_map hn hmem h hname]

end Symbols

namespace Layout

variable {symbols : Symbols} {position number : Nat}

/-- A label is placed if it is a name in memory that is still free, and nothing else can be wrong. -/
theorem placeLabel_eq_ok_iff {label : Option (List Char)} {after : Symbols} :
    placeLabel symbols position number label = .ok after ↔
      (∀ name, label = some name → Label.isLabel name = true ∧ position < memorySize ∧
        symbols.find? name = none) ∧
      after.toList = symbols.toList ++
        (label.map fun name => ⟨name, UInt16.ofNat position, number⟩).toList := by
  unfold placeLabel
  cases label with
  | none =>
    rcases symbols with ⟨list⟩
    rcases after with ⟨list'⟩
    simp only [reduceCtorEq, false_implies, implies_true, true_and, Option.map_none,
      Option.toList_none, List.append_nil, Except.ok.injEq, Symbols.mk.injEq]
    exact eq_comm
  | some name =>
    have hlabel : Label.isLabel name = (Label.fault? name).isNone := rfl
    simp only [Option.some.injEq, forall_eq', Option.map_some, Option.toList_some, hlabel]
    cases hf : Label.fault? name with
    | some fault => simp
    | none =>
      by_cases hp : position < memorySize
      · have hdefine : symbols.define ⟨name, UInt16.ofNat position, number⟩ = .ok after ↔
            symbols.find? name = none ∧ after.toList =
              symbols.toList ++ [⟨name, UInt16.ofNat position, number⟩] :=
          Symbols.define_eq_ok_iff
        simp only [hp, Option.isNone_none, true_and, ← hdefine]
        cases symbols.define ⟨name, UInt16.ofNat position, number⟩ <;> simp
      · simp [hp]

theorem placeStatement_eq_ok_iff_of_site {site : Site} {statements : List Statement} :
    placeStatement site.position site.number site.line = .ok statements ↔
      (∀ mnemonic, site.line.mnemonic = some mnemonic →
        site.position + site.line.width ≤ memorySize ∧ ∃ s, Statement.encode mnemonic
          site.line.operand (UInt16.ofNat site.position) site.number = .ok s) ∧
      statements = site.statement?.toList := by
  rw [placeStatement_eq_ok_iff]
  unfold Site.statement? Line.width
  cases hm : site.line.mnemonic with
  | none => simp
  | some mnemonic =>
    cases he : Statement.encode mnemonic site.line.operand (UInt16.ofNat site.position)
        site.number with
    | error problem => simp [he]
    | ok s => simp [he, Except.toOption, (Statement.stands_encode he).1.length_bytes]

theorem size_statement? {site : Site} (h : site.Fits) :
    size site.statement?.toList = site.line.width := by
  unfold Site.statement? Line.width
  cases hm : site.line.mnemonic with
  | none => rfl
  | some mnemonic =>
    obtain ⟨-, s, he⟩ := h.statement mnemonic hm
    simp [he, Except.toOption, size, (Statement.stands_encode he).1.length_bytes]

/-- A line is placed if it fits where it stands and its label is still free. -/
theorem ofLine_eq_ok_iff_of_site (site : Site) {first : Layout}
    (hs : (symbols.toList.map Symbol.name).Nodup) :
    ofLine symbols site.position site.number site.line = .ok first ↔ site.Fits ∧
      ((symbols.toList ++ site.symbol?.toList).map Symbol.name).Nodup ∧
      first = ⟨site.statement?.toList, ⟨symbols.toList ++ site.symbol?.toList⟩,
        site.position + site.line.width⟩ := by
  have hfree : ((symbols.toList ++ site.symbol?.toList).map Symbol.name).Nodup ↔
      ∀ name, site.line.label = some name → symbols.find? name = none := by
    unfold Site.symbol?
    simp only [Symbols.find?_eq_none_iff]
    cases site.line.label with
    | none => simp [hs]
    | some name => simp [List.nodup_append, hs]
  rw [ofLine_eq_ok_iff, hfree]
  constructor
  · rintro ⟨⟨after⟩, statements, hlabel, hstatement, rfl⟩
    obtain ⟨hl, rfl⟩ := placeLabel_eq_ok_iff.mp hlabel
    obtain ⟨hm, rfl⟩ := placeStatement_eq_ok_iff_of_site.mp hstatement
    have hfits : site.Fits := ⟨fun name hn => ⟨(hl name hn).1, (hl name hn).2.1⟩, hm⟩
    refine ⟨hfits, fun name hn => (hl name hn).2.2, ?_⟩
    rw [size_statement? hfits]
    rfl
  · rintro ⟨hfits, hfree, rfl⟩
    refine ⟨_, _, placeLabel_eq_ok_iff.mpr ⟨fun name hn => ?_, rfl⟩,
      placeStatement_eq_ok_iff_of_site.mpr ⟨hfits.statement, rfl⟩, ?_⟩
    · exact ⟨(hfits.label name hn).1, (hfits.label name hn).2, hfree name hn⟩
    · rw [size_statement? hfits]
      rfl

/-- **The first pass** succeeds exactly when every line fits where it stands and no name is defined
twice. It finds the statements and the symbols of the lines, in their order. -/
theorem ofLines_eq_ok_iff {texts : List (List Char)} {layout : Layout}
    (hs : (symbols.toList.map Symbol.name).Nodup) :
    ofLines symbols position number texts = .ok layout ↔
      (∀ site ∈ Site.ofLines position number (texts.map Line.parse), site.Fits) ∧
      ((symbols.toList ++ (Site.ofLines position number (texts.map Line.parse)).filterMap
        Site.symbol?).map Symbol.name).Nodup ∧
      layout = ⟨(Site.ofLines position number (texts.map Line.parse)).filterMap Site.statement?,
        ⟨symbols.toList ++ (Site.ofLines position number (texts.map Line.parse)).filterMap Site.symbol?⟩,
        position + ((texts.map Line.parse).map Line.width).sum⟩ := by
  induction texts generalizing symbols position number layout with
  | nil =>
    rcases symbols with ⟨list⟩
    simp [ofLines, Site.ofLines, eq_comm, hs]
  | cons text rest ih =>
    have hcons : ∀ {β : Type} (f : Site → Option β) (site : Site) (others : List Site),
        (site :: others).filterMap f = (f site).toList ++ others.filterMap f := by
      intro β f site others
      rw [List.filterMap_cons]
      cases f site <;> rfl
    rw [ofLines_cons_eq_ok_iff, List.map_cons, List.map_cons, Site.ofLines, List.forall_mem_cons, hcons,
      hcons, ← List.append_assoc, List.sum_cons, ← Nat.add_assoc]
    constructor
    · rintro ⟨first, others, hfirst, hothers, rfl⟩
      obtain ⟨hfits, hfree, rfl⟩ :=
        (ofLine_eq_ok_iff_of_site ⟨Line.parse text, position, number⟩ hs).mp hfirst
      obtain ⟨hrest, hall, rfl⟩ := (ih hfree).mp hothers
      exact ⟨⟨hfits, hrest⟩, hall, rfl⟩
    · rintro ⟨⟨hfits, hrest⟩, hall, rfl⟩
      have hfree := hall.sublist ((List.sublist_append_left _ _).map Symbol.name)
      exact ⟨_, _, (ofLine_eq_ok_iff_of_site _ hs).mpr ⟨hfits, hfree, rfl⟩,
        (ih hfree).mpr ⟨hrest, hall, rfl⟩, rfl⟩

end Layout

/-! ### Bytes of lines -/

theorem Statement.length_bytes_filled (symbols : Symbols) (s : Statement) :
    (s.filled symbols).bytes.length = s.bytes.length := by
  unfold filled
  cases hr : s.resolve symbols with
  | error problem => rfl
  | ok s' =>
    unfold resolve at hr
    split at hr
    · cases hr
      rfl
    · split at hr
      · cases hr
      · change s'.bytes.length = s.bytes.length
        exact length_bytes_of_patch hr

namespace Site

variable {symbols : Symbols} {site : Site}

theorem statement?_eq_some {mnemonic : List Char} {s : Statement}
    (hm : site.line.mnemonic = some mnemonic) (h : Statement.encode mnemonic site.line.operand
      (UInt16.ofNat site.position) site.number = .ok s) : site.statement? = some s := by
  unfold statement?
  rw [hm, Option.bind_some, h]
  rfl

theorem exists_encode_of_statement? {s : Statement} (h : site.statement? = some s) :
    ∃ mnemonic, site.line.mnemonic = some mnemonic ∧ Statement.encode mnemonic site.line.operand
      (UInt16.ofNat site.position) site.number = .ok s := by
  obtain ⟨mnemonic, hm, hs⟩ := Option.bind_eq_some_iff.mp h
  refine ⟨mnemonic, hm, ?_⟩
  cases he : Statement.encode mnemonic site.line.operand (UInt16.ofNat site.position)
      site.number with
  | error problem =>
    rw [he] at hs
    cases hs
  | ok s' =>
    rw [he] at hs
    cases hs
    rfl

theorem line_of_statement? {s : Statement} (h : site.statement? = some s) : s.line = site.number := by
  obtain ⟨mnemonic, -, he⟩ := exists_encode_of_statement? h
  exact (Statement.stands_encode he).1.line_eq

/-- A line that fits has as many bytes as its width says. -/
theorem length_code (h : site.Fits) : (site.code symbols).length = site.line.width := by
  unfold code
  cases hm : site.line.mnemonic with
  | none => simp [statement?, Line.width, hm]
  | some mnemonic =>
    obtain ⟨-, s, hs⟩ := h.statement mnemonic hm
    rw [statement?_eq_some hm hs]
    dsimp only
    rw [Statement.length_bytes_filled, (Statement.stands_encode hs).1.length_bytes]
    simp [Line.width, hm]

/-- A line that fits has bytes exactly if it has a mnemonic. -/
theorem width_pos_iff (h : site.Fits) : 0 < site.line.width ↔ site.line.mnemonic ≠ none := by
  unfold Line.width
  cases hm : site.line.mnemonic with
  | none => simp
  | some mnemonic =>
    obtain ⟨-, s, hs⟩ := h.statement mnemonic hm
    simp [(Statement.stands_encode hs).2]

/-- A statement that fits begins in memory. -/
theorem position_lt (h : site.Fits) (hm : site.line.mnemonic ≠ none) :
    site.position < memorySize := by
  obtain ⟨mnemonic, hmn⟩ := Option.ne_none_iff_exists'.mp hm
  have hpos := (width_pos_iff h).mpr hm
  obtain ⟨hle, -⟩ := h.statement mnemonic hmn
  omega

theorem toNat_position {position : Nat} (h : position < memorySize) :
    (UInt16.ofNat position).toNat = position :=
  UInt16.toNat_ofNat_of_lt' h

theorem length_flatMap_code (symbols : Symbols) {all : List Site} (h : ∀ site ∈ all, site.Fits) :
    (all.flatMap (code symbols)).length = ((all.map Site.line).map Line.width).sum := by
  rw [List.length_flatMap, List.map_map]
  exact congrArg List.sum (List.map_congr_left fun site hs => length_code (h site hs))

theorem flatMap_code (symbols : Symbols) (all : List Site) :
    all.flatMap (code symbols) =
      ((all.filterMap statement?).map (Statement.filled symbols)).flatMap Statement.bytes := by
  induction all with
  | nil => rfl
  | cons site rest ih =>
    rw [List.flatMap_cons, ih, List.filterMap_cons]
    unfold code
    cases site.statement? <;> rfl

end Site

/-! ### Programs -/

namespace Program

/-- The lines of a program where they stand. -/
def sites (program : Program) (lines : List Line) : List Site :=
  Site.ofLines program.origin.toNat 1 lines

/-- The program has the layout that its lines give it. -/
structure IsLaidOut (program : Program) (lines : List Line) : Prop where
  /-- Each line stands behind the bytes of the lines before it. -/
  site {k : Nat} {site : Site} : (program.sites lines)[k]? = some site →
    lines[k]? = some site.line ∧ site.number = k + 1 ∧ site.position = program.origin.toNat +
      (((program.sites lines).take k).flatMap (Site.code program.symbols)).length
  /-- The bytes are those of the lines, in their order. -/
  bytes : program.bytes = (program.sites lines).flatMap (Site.code program.symbols)
  /-- How many bytes a line has can be told from the line alone, -/
  length_code {site : Site} : site ∈ program.sites lines →
    (site.code program.symbols).length = site.line.width
  /-- and there are some if it has a mnemonic. -/
  width_pos_iff {line : Line} : line ∈ lines → (0 < line.width ↔ line.mnemonic ≠ none)
  end_le : program.origin.toNat + program.bytes.length ≤ memorySize
  /-- The symbols are the labels of the lines, in their order. -/
  symbols : program.symbols.toList = (program.sites lines).filterMap Site.symbol?
  nodup_names : (program.symbols.toList.map Symbol.name).Nodup
  /-- A label is a name, and its address is not cut off. -/
  label {site : Site} {name : List Char} : site ∈ program.sites lines →
    site.line.label = some name → Label.isLabel name = true ∧
      ∃ symbol, program.symbols.find? name = some symbol ∧ symbol.line = site.number ∧
        symbol.address.toNat = site.position
  /-- The bytes of a line with a mnemonic are those of its statement, which was encoded at its own
  address, with the address of its label filled in. -/
  statement {site : Site} {mnemonic : List Char} : site ∈ program.sites lines →
    site.line.mnemonic = some mnemonic → ∃ s,
      Statement.encode mnemonic site.line.operand s.position site.number = .ok s ∧
      s.position.toNat = site.position ∧ s.Resolves program.symbols ∧
      site.code program.symbols = (s.filled program.symbols).bytes

theorem isLaidOut_of_fits {program : Program} {lines : List Line}
    (hfits : ∀ site ∈ program.sites lines, site.Fits)
    (hsymbols : program.symbols.toList = (program.sites lines).filterMap Site.symbol?)
    (hnodup : (program.symbols.toList.map Symbol.name).Nodup)
    (hbytes : program.bytes = (program.sites lines).flatMap (Site.code program.symbols))
    (hresolves : ∀ s ∈ (program.sites lines).filterMap Site.statement?,
      s.Resolves program.symbols) : program.IsLaidOut lines where
  site {k site} hk := by
    have hbefore := Site.length_flatMap_code program.symbols fun site hs =>
      hfits site (List.mem_of_mem_take (i := k) hs)
    rw [List.map_take, sites, Site.map_line_ofLines] at hbefore
    rw [sites, Site.getElem?_ofLines] at hk
    obtain ⟨line, hline, rfl⟩ := Option.map_eq_some_iff.mp hk
    exact ⟨hline, Nat.add_comm 1 k, congrArg (program.origin.toNat + ·) hbefore.symm⟩
  bytes := hbytes
  length_code hs := Site.length_code (hfits _ hs)
  width_pos_iff {line} hl := by
    rw [← Site.map_line_ofLines program.origin.toNat 1 lines] at hl
    obtain ⟨site, hs, rfl⟩ := List.mem_map.mp hl
    exact Site.width_pos_iff (hfits site hs)
  end_le := by
    rw [hbytes, Site.length_flatMap_code _ hfits, sites, Site.map_line_ofLines]
    exact Site.end_le_of_fits (Nat.le_of_lt program.origin.toNat_lt) hfits
  symbols := hsymbols
  nodup_names := hnodup
  label {site name} hs hl := by
    obtain ⟨hname, hposition⟩ := (hfits site hs).label name hl
    have hmem : ⟨name, UInt16.ofNat site.position, site.number⟩ ∈ program.symbols.toList := by
      rw [hsymbols]
      exact List.mem_filterMap.mpr ⟨site, hs, by rw [Site.symbol?, hl]; rfl⟩
    exact ⟨hname, _, Symbols.find?_eq_some_of_mem hnodup hmem, rfl, Site.toNat_position hposition⟩
  statement {site mnemonic} hs hm := by
    obtain ⟨-, s, he⟩ := (hfits site hs).statement mnemonic hm
    have hposition := (Statement.stands_encode he).1.position_eq
    have hstatement := Site.statement?_eq_some hm he
    have hmnemonic : site.line.mnemonic ≠ none := by
      rw [hm]
      exact Option.some_ne_none mnemonic
    refine ⟨s, ?_, ?_, hresolves s (List.mem_filterMap.mpr ⟨site, hs, hstatement⟩), ?_⟩
    · rw [hposition]
      exact he
    · rw [hposition]
      exact Site.toNat_position (Site.position_lt (hfits site hs) hmnemonic)
    · rw [Site.code, hstatement]

/-- **The layout of a program.** An assembled program is laid out as its lines say. -/
theorem isLaidOut {origin : UInt16} {source : List Char} {program : Program}
    (h : assemble origin source = .ok program) :
    program.origin = origin ∧ program.IsLaidOut ((lines source).map Line.parse) := by
  obtain ⟨layout, bytes, hlines, hlink, rfl⟩ := assemble_eq_ok_iff.mp h
  obtain ⟨hresolves, rfl⟩ := Statement.link_eq_ok_iff.mp hlink
  have hempty : (Symbols.empty.toList.map Symbol.name).Nodup := List.nodup_nil
  obtain ⟨hfits, hnodup, rfl⟩ := (Layout.ofLines_eq_ok_iff hempty).mp hlines
  exact ⟨rfl, isLaidOut_of_fits hfits rfl hnodup (Site.flatMap_code _ _).symm hresolves⟩

/-- A loop that ends with the last byte of memory is laid out as its lines say, and its last label
stands for the last address. -/
theorem isLaidOut_up_to_the_last_address :
    ∃ program, assemble 0xFFFA "loop: LDA end,X\n BNE loop\n\nend: .byte $01".toList = .ok program ∧
      program.bytes = [0xBD, 0xFF, 0xFF, 0xD0, 0xFB, 0x01] ∧
      program.symbols.find? "end".toList = some ⟨"end".toList, 0xFFFF, 4⟩ ∧
      program.IsLaidOut ((lines
        "loop: LDA end,X\n BNE loop\n\nend: .byte $01".toList).map Line.parse) := by
  have h : assemble 0xFFFA "loop: LDA end,X\n BNE loop\n\nend: .byte $01".toList =
      .ok ⟨0xFFFA, [0xBD, 0xFF, 0xFF, 0xD0, 0xFB, 0x01],
        ⟨[⟨"loop".toList, 0xFFFA, 1⟩, ⟨"end".toList, 0xFFFF, 4⟩]⟩⟩ := by decide +kernel
  exact ⟨_, h, rfl, by decide +kernel, (isLaidOut h).2⟩

end Program

end Nmos6502
