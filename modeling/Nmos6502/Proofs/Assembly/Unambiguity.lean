import Nmos6502.Proofs.Assembly.LiteralOperands

/-!
# Operands are unambiguous

An operand is tried in one mode after the other, and taken for a label only if no mode reads it. The
order does not matter: at most one mode of an instruction reads an operand
(`Statement.eq_of_parse?`), and the two modes in which a branch reads one differ in the number of
digits (`Statement.branchLiteral?_unique`). So the modes can be tried in any order
(`Statement.ofInstructionBy_eq`).

A label begins with a letter, and what a mode reads does not, but for the accumulator
(`AddressingMode.Accepts.isAlpha_head?_eq_false`). So `A`, as the operand of a shift, is the only
operand that both a mode and a label could claim (`Statement.operands_are_unambiguous`).
-/

namespace Nmos6502

/-- Where only one member of a list can give a result, the order of the list does not matter. -/
theorem findSome?_eq_of_unique {α β : Type} {f : α → Option β}
    (hunique : ∀ a a' b b', f a = some b → f a' = some b' → a = a') {l l' : List α}
    (hl : ∀ a, a ∈ l) (hl' : ∀ a, a ∈ l') : l.findSome? f = l'.findSome? f := by
  cases h : l.findSome? f with
  | none =>
    have hnone : ∀ a ∈ l', f a = none := fun a _ => List.findSome?_eq_none_iff.mp h a (hl a)
    exact (List.findSome?_eq_none_iff.mpr hnone).symm
  | some b =>
    obtain ⟨a, -, ha⟩ := List.exists_of_findSome?_eq_some h
    cases h' : l'.findSome? f with
    | none =>
      have hnone := List.findSome?_eq_none_iff.mp h' a (hl' a)
      rw [ha] at hnone
      cases hnone
    | some b' =>
      obtain ⟨a', -, ha'⟩ := List.exists_of_findSome?_eq_some h'
      obtain rfl := hunique a a' b b' ha ha'
      exact ha.symm.trans ha'

/-! ### What modes read -/

/-- A mode reads a text as an operand. -/
def AddressingMode.Accepts (mode : AddressingMode) (text : List Char) : Prop :=
  ∃ bytes, mode.parse? text = some bytes

/-- The table has an opcode for an instruction in a mode. -/
def Instruction.Supports (i : Instruction) (mode : AddressingMode) : Prop :=
  ∃ op ∈ Opcode.table, op.instruction = i ∧ op.mode = mode

theorem Instruction.supports_iff {i : Instruction} {mode : AddressingMode} :
    i.Supports mode ↔ ∃ op, i.opcode? mode = some op := by
  constructor
  · rintro ⟨op, hop, rfl, rfl⟩
    exact ⟨op, opcode?_of_mem_table hop⟩
  · rintro ⟨op, hop⟩
    exact ⟨op, of_opcode? hop⟩

namespace AddressingMode

/-- What a mode reads does not begin with a letter, but for the accumulator. -/
theorem Accepts.isAlpha_head?_eq_false {mode : AddressingMode} {text : List Char}
    (h : mode.Accepts text) : (mode = accumulator ∧ text = ['A']) ∨
      ∀ c ∈ text.head?, c.isAlpha = false := by
  obtain ⟨bytes, hbytes⟩ := h
  have hmarks : ∀ m ∈ all, (m.opening.head?.all fun c => !c.isAlpha) = true := by decide
  have hdelimited : mode.opening ≠ [] → mode.delimited? text = some bytes →
      ∀ c ∈ text.head?, c.isAlpha = false := fun hne hd => by
    obtain ⟨digits, rfl, -, -⟩ := delimited?_eq_some_iff.mp hd
    obtain ⟨first, rest, hopening⟩ := List.exists_cons_of_ne_nil hne
    have hmark := hmarks mode (mem_all mode)
    rw [hopening] at hmark ⊢
    rintro _ ⟨⟩
    simpa using hmark
  cases mode with
  | implied =>
    obtain ⟨rfl, -⟩ := Option.ite_none_right_eq_some.mp hbytes
    exact Or.inr nofun
  | accumulator =>
    obtain ⟨rfl | rfl, -⟩ := Option.ite_none_right_eq_some.mp hbytes
    · exact Or.inr nofun
    · exact Or.inl ⟨rfl, rfl⟩
  | _ => exact Or.inr (hdelimited (List.cons_ne_nil _ _) hbytes)

/-- What stands behind a label that names an address for a mode. -/
def indices : AddressingMode → List (List Char)
  | absolute => [[]]
  | absoluteX => [[',', 'X'], [',', 'x']]
  | absoluteY => [[',', 'Y'], [',', 'y']]
  | _ => []

end AddressingMode

namespace Statement

/-! ### Label operands -/

/-- An operand names a label for a mode: it is `name`, `name,X` or `name,Y`. -/
def NamesLabel (operand : List Char) (mode : AddressingMode) : Prop :=
  ∃ name index, operand = name ++ index ∧ Label.isLabel name = true ∧ index ∈ mode.indices

variable {i : Instruction} {operand : List Char} {mode : AddressingMode}

/-- An operand is split behind the label that it names. -/
theorem splitIndex_append {name index : List Char} (h : Label.isLabel name = true)
    (hindex : index ∈ mode.indices) : splitIndex (name ++ index) = (name, mode) := by
  obtain ⟨-, hcomma⟩ := not_mem_comma_of_isLabel h
  have hother : ∀ {c d : Char}, c ≠ d → before? [',', c] (name ++ [',', d]) = none := by
    intro c d hne
    rw [Option.eq_none_iff_forall_ne_some]
    intro rest hrest
    have hends := congrArg List.getLast? (before?_eq_some_iff.mp hrest)
    rw [List.getLast?_append, List.getLast?_append] at hends
    exact hne (Option.some.inj hends).symm
  cases mode with
  | absolute =>
    obtain rfl : index = [] := List.mem_singleton.mp hindex
    rw [List.append_nil]
    exact splitIndex_of_not_mem hcomma
  | absoluteX =>
    rcases List.mem_cons.mp hindex with rfl | hindex
    · simp only [splitIndex, before?_append]
    · obtain rfl := List.mem_singleton.mp hindex
      simp only [splitIndex, before?_append, @hother 'X' 'x' (by decide)]
  | absoluteY =>
    rcases List.mem_cons.mp hindex with rfl | hindex
    · simp only [splitIndex, before?_append, @hother 'X' 'Y' (by decide),
        @hother 'x' 'Y' (by decide)]
    · obtain rfl := List.mem_singleton.mp hindex
      simp only [splitIndex, before?_append, @hother 'X' 'y' (by decide),
        @hother 'x' 'y' (by decide), @hother 'Y' 'y' (by decide)]
  | _ => cases hindex

theorem splitIndex_eq_append (operand : List Char) :
    ∃ index ∈ (splitIndex operand).2.indices, operand = (splitIndex operand).1 ++ index := by
  unfold splitIndex
  split
  · next h => exact ⟨_, List.mem_cons_self .., before?_eq_some_iff.mp h⟩
  · next h => exact ⟨_, List.mem_cons_of_mem _ (List.mem_cons_self ..), before?_eq_some_iff.mp h⟩
  · next h => exact ⟨_, List.mem_cons_self .., before?_eq_some_iff.mp h⟩
  · next h => exact ⟨_, List.mem_cons_of_mem _ (List.mem_cons_self ..), before?_eq_some_iff.mp h⟩
  · exact ⟨[], List.mem_cons_self .., (List.append_nil _).symm⟩

/-- **An operand is taken for a label** if it names one for a mode of the instruction. -/
theorem exists_labelled?_iff : (∃ found, labelled? i operand = some found) ↔
    ∃ mode, i.Supports mode ∧ NamesLabel operand mode := by
  constructor
  · rintro ⟨⟨op, name⟩, hfound⟩
    obtain ⟨rfl, rfl, htakes, hm⟩ := of_labelled? hfound
    obtain ⟨index, hindex, hoperand⟩ := splitIndex_eq_append operand
    refine ⟨op.mode, ⟨op, htakes.mem_table, rfl, rfl⟩, _, index, hoperand, htakes.isLabel, ?_⟩
    rcases htakes.mode with ⟨hrelative, -⟩ | hmode
    · exact absurd hrelative hm
    · rwa [hmode]
  · rintro ⟨mode, hsupports, name, index, rfl, hlabel, hindex⟩
    obtain ⟨op, hop⟩ := Instruction.supports_iff.mp hsupports
    refine ⟨(op, name), ?_⟩
    unfold labelled?
    rw [splitIndex_append hlabel hindex]
    simp only [hlabel, if_true, hop, Option.map_some]

/-- Only the letter itself, in either case, is `A` in upper case. -/
theorem eq_or_eq_of_toUpper_eq {c : Char} (h : c.toUpper = 'A') : c = 'A' ∨ c = 'a' := by
  refine toUpper_induction (p := fun c d => d = 'A' → c = 'A' ∨ c = 'a') ?_ ?_ c h
  · decide +kernel
  · exact fun _ _ hc => Or.inl hc

/-- Only `A` can be read by a mode and name a label as well. -/
theorem eq_of_accepts_of_namesLabel {mode' : AddressingMode}
    (h : mode.Accepts (operand.map Char.toUpper)) (hlabel : NamesLabel operand mode') :
    mode = .accumulator ∧ (operand = ['A'] ∨ operand = ['a']) := by
  obtain ⟨name, index, rfl, hname, -⟩ := hlabel
  obtain ⟨c, hc, halpha⟩ := isAlpha_of_isLabel hname
  have hhead : c ∈ ((name ++ index).map Char.toUpper).head? := by
    rw [List.map_append, List.head?_append, Option.mem_def.mp hc]
    rfl
  rcases h.isAlpha_head?_eq_false with ⟨hmode, htext⟩ | hother
  · obtain ⟨d, hd, hupper⟩ := List.map_eq_singleton_iff.mp htext
    rw [hd]
    refine ⟨hmode, ?_⟩
    rcases eq_or_eq_of_toUpper_eq hupper with rfl | rfl
    · exact Or.inl rfl
    · exact Or.inr rfl
  · rw [hother c hhead] at halpha
    cases halpha

/-! ### The order of the modes -/

/-- What a mode makes of the operand of a branch: a raw offset, or the offset that leads to a
target. -/
def branchLiteral? (op : Opcode) (operand : List Char) (position : UInt16) (line : Nat)
    (mode : AddressingMode) : Option (Except Problem Statement) :=
  match mode with
  | .relative => (mode.parse? operand).map fun offset => .ok (data (op.code :: offset) position line)
  | .absolute => (mode.parse? operand).map fun target =>
      (branchOffset position (word (target.getD 0 0) (target.getD 1 0))).map fun offset =>
        data [op.code, offset] position line
  | _ => none

/-- A branch whose operand is tried in the given modes, in their order, before it is taken for a
label. -/
def ofBranchBy (modes : List AddressingMode) (i : Instruction) (operand : List Char)
    (position : UInt16) (line : Nat) : Except Problem Statement :=
  match i.opcode? .relative with
  | none => .error (.notBranch i)
  | some op =>
    (modes.findSome? (branchLiteral? op operand position line)).getD <|
      if Label.isLabel operand then .ok ⟨[op.code, 0], some (operand, .relative), position, line⟩
      else .error (.badTarget i operand)

/-- An instruction whose operand is tried in the given modes, in their order, before it is taken for
a label. -/
def ofInstructionBy (modes : List AddressingMode) (i : Instruction) (operand : List Char)
    (position : UInt16) (line : Nat) : Except Problem Statement :=
  if i.isBranch then ofBranchBy modes i operand position line
  else
    match literal? i (operand.map Char.toUpper) modes, labelled? i operand with
    | some (op, bytes), _ => .ok (data (op.code :: bytes) position line)
    | none, some (op, name) => .ok ⟨[op.code, 0, 0], some (name, .absolute), position, line⟩
    | none, none => .error (if operand = [] then .missingOperand i else .badOperand i operand)

variable {modes : List AddressingMode}

/-- One mode at most makes something of the operand of a branch. -/
theorem branchLiteral?_unique {op : Opcode} {position : UInt16} {line : Nat}
    (m m' : AddressingMode) (b b' : Except Problem Statement)
    (h : branchLiteral? op operand position line m = some b)
    (h' : branchLiteral? op operand position line m' = some b') : m = m' := by
  have hreads : ∀ {m b}, branchLiteral? op operand position line m = some b →
      (m = .relative ∨ m = .absolute) ∧ outline operand ∈ m.outlines := by
    intro m b h
    unfold branchLiteral? at h
    split at h
    · obtain ⟨bytes, hbytes, -⟩ := Option.map_eq_some_iff.mp h
      exact ⟨Or.inl rfl, AddressingMode.outline_mem_outlines hbytes⟩
    · obtain ⟨bytes, hbytes, -⟩ := Option.map_eq_some_iff.mp h
      exact ⟨Or.inr rfl, AddressingMode.outline_mem_outlines hbytes⟩
    · cases h
  obtain ⟨hm, hout⟩ := hreads h
  obtain ⟨hm', hout'⟩ := hreads h'
  refine (AddressingMode.eq_or_alike_of_outlines hout hout').resolve_right ?_
  rcases hm with rfl | rfl <;> rcases hm' with rfl | rfl <;> decide

/-- The modes in which a branch is written are tried in the order of all modes. -/
theorem ofBranchBy_all (i : Instruction) (operand : List Char) (position : UInt16) (line : Nat) :
    ofBranchBy AddressingMode.all i operand position line = ofBranch i operand position line := by
  unfold ofBranchBy ofBranch
  cases i.opcode? .relative with
  | none => rfl
  | some op =>
    have hsearch : AddressingMode.all.findSome? (branchLiteral? op operand position line) =
        (branchLiteral? op operand position line .relative).or
          (branchLiteral? op operand position line .absolute) := by
      simp only [AddressingMode.all, List.findSome?_cons, List.findSome?_nil, branchLiteral?]
      cases AddressingMode.relative.parse? operand <;> cases AddressingMode.absolute.parse? operand <;>
        rfl
    dsimp only
    rw [hsearch]
    unfold branchLiteral?
    cases AddressingMode.relative.parse? operand with
    | some offset => rfl
    | none =>
      cases AddressingMode.absolute.parse? operand with
      | some target => rfl
      | none => rfl

/-- **The order of the modes does not matter**, as long as none is left out. -/
theorem ofInstructionBy_eq (h : ∀ mode, mode ∈ modes) (i : Instruction) (operand : List Char)
    (position : UInt16) (line : Nat) :
    ofInstructionBy modes i operand position line = ofInstruction i operand position line := by
  have hliteral : literal? i (operand.map Char.toUpper) modes =
      literal? i (operand.map Char.toUpper) AddressingMode.all := by
    refine findSome?_eq_of_unique (fun m m' b b' hb hb' => ?_) h AddressingMode.mem_all
    split at hb
    · next op bytes hop hbytes =>
      split at hb'
      · next op' bytes' hop' hbytes' => exact eq_of_parse? hop hop' hbytes hbytes'
      · cases hb'
    · cases hb
  have hbranch : ofBranchBy modes i operand position line =
      ofBranchBy AddressingMode.all i operand position line := by
    unfold ofBranchBy
    cases i.opcode? .relative with
    | none => rfl
    | some op =>
      dsimp only
      rw [findSome?_eq_of_unique branchLiteral?_unique h AddressingMode.mem_all]
  unfold ofInstructionBy ofInstruction
  rw [hliteral, hbranch, ofBranchBy_all]
  rfl

/-! ### Unambiguous operands -/

/-- An operand of an instruction can be read in one way only. -/
structure IsUnambiguous (i : Instruction) (operand : List Char) : Prop where
  /-- One mode of the instruction at most reads the operand. -/
  mode_unique : ∀ {mode mode'}, i.Supports mode → i.Supports mode' →
    mode.Accepts (operand.map Char.toUpper) → mode'.Accepts (operand.map Char.toUpper) → mode = mode'
  /-- The modes can be tried in any order. -/
  order : ∀ {modes : List AddressingMode}, (∀ mode, mode ∈ modes) →
    ofInstructionBy modes i operand = ofInstruction i operand
  /-- What is taken for a label names one for a mode of the instruction. -/
  labelled : (∃ found, labelled? i operand = some found) ↔
    ∃ mode, i.Supports mode ∧ NamesLabel operand mode
  /-- Only the accumulator of a shift is read by a mode and names a label as well. -/
  overlap : ((∃ mode, i.Supports mode ∧ mode.Accepts (operand.map Char.toUpper)) ∧
      ∃ mode, i.Supports mode ∧ NamesLabel operand mode) ↔
    i ∈ Instruction.shifts ∧ (operand = ['A'] ∨ operand = ['a'])

/-- A shift takes `A` for the accumulator, and could take it for a label. -/
theorem overlap_of_mem_shifts (hi : i ∈ Instruction.shifts)
    (hoperand : operand = ['A'] ∨ operand = ['a']) :
    (∃ mode, i.Supports mode ∧ mode.Accepts (operand.map Char.toUpper)) ∧
      ∃ mode, i.Supports mode ∧ NamesLabel operand mode := by
  have htable : ∀ i ∈ Instruction.shifts, (i.opcode? .accumulator).isSome = true ∧
      (i.opcode? .absolute).isSome = true := by decide
  have hsupports : ∀ {mode}, (i.opcode? mode).isSome = true → i.Supports mode := fun h =>
    Instruction.supports_iff.mpr (Option.isSome_iff_exists.mp h)
  obtain ⟨haccumulator, habsolute⟩ := htable i hi
  refine ⟨⟨.accumulator, hsupports haccumulator, [], ?_⟩, .absolute, hsupports habsolute, operand, [],
    (List.append_nil _).symm, ?_, List.mem_cons_self ..⟩
  · rcases hoperand with rfl | rfl <;> rfl
  · rcases hoperand with rfl | rfl <;> decide

/-- **Operands are unambiguous**: whatever an operand is, one mode of the instruction at most reads
it, in whichever order the modes are tried, and only `A` behind a shift could also be a label. -/
theorem operands_are_unambiguous (i : Instruction) (operand : List Char) :
    IsUnambiguous i operand where
  mode_unique h h' haccepts haccepts' := by
    obtain ⟨op, hop⟩ := Instruction.supports_iff.mp h
    obtain ⟨op', hop'⟩ := Instruction.supports_iff.mp h'
    obtain ⟨bytes, hbytes⟩ := haccepts
    obtain ⟨bytes', hbytes'⟩ := haccepts'
    exact eq_of_parse? hop hop' hbytes hbytes'
  order h := by
    funext position line
    exact ofInstructionBy_eq h i operand position line
  labelled := exists_labelled?_iff
  overlap := by
    constructor
    · rintro ⟨⟨mode, hsupports, haccepts⟩, mode', -, hnames⟩
      obtain ⟨rfl, hoperand⟩ := eq_of_accepts_of_namesLabel haccepts hnames
      obtain ⟨op, hop, rfl, hmode⟩ := hsupports
      exact ⟨(Instruction.mem_shifts_of_mem_table hop).1 hmode, hoperand⟩
    · rintro ⟨hi, hoperand⟩
      exact overlap_of_mem_shifts hi hoperand

/-- With the last mode tried first, a zero page operand and the accumulator are still found. -/
theorem operands_are_unambiguous_backwards :
    ofInstructionBy AddressingMode.all.reverse .lda ['$', '1', '0'] 0 1 =
        .ok (data [0xA5, 0x10] 0 1) ∧
      ofInstructionBy AddressingMode.all.reverse .lsr ['a'] 0 1 = .ok (data [0x4A] 0 1) := by
  have hmem : ∀ mode, mode ∈ AddressingMode.all.reverse := fun mode =>
    List.mem_reverse.mpr (AddressingMode.mem_all mode)
  rw [(operands_are_unambiguous .lda ['$', '1', '0']).order hmem,
    (operands_are_unambiguous .lsr ['a']).order hmem]
  decide +kernel

end Statement

end Nmos6502
