import Nmos6502.Proofs.Assembly.Layout

/-!
# What is refused

What can be wrong with a statement can be told from its mnemonic, its operand and its position
(`Statement.IsRefused`), and what can be wrong with a line from its place and the lines before it
(`Site.IsRefused`). Encoding fails for exactly these reasons (`Statement.encode_eq_error_iff`), and so
does the first pass over one line (`Layout.ofLine_of_isRefused`, `Layout.ofLine_of_fits`). The second
pass fails for a statement whose label has no address or is out of reach
(`Statement.resolve_eq_error_iff`).
-/

namespace Nmos6502

theorem Label.fault?_of_isLabel {name : List Char} (h : isLabel name = true) : fault? name = none :=
  Option.isNone_iff_eq_none.mp h

namespace Statement

/-! ### Statements -/

/-- An instruction takes an operand: it has a mode that reads it, or one that takes the label in it. -/
def Takes (i : Instruction) (operand : List Char) : Prop :=
  (∃ op bytes, i.opcode? op.mode = some op ∧
    op.mode.parse? (operand.map Char.toUpper) = some bytes) ∨
  (Label.isLabel (splitIndex operand).1 = true ∧ i.opcode? (splitIndex operand).2 ≠ none)

/-- The name of the one directive, its letters in either case. -/
def IsByte (name : List Char) : Prop :=
  name.map Char.toLower = ['b', 'y', 't', 'e']

instance (name : List Char) : Decidable (IsByte name) :=
  inferInstanceAs (Decidable (_ = _))

/-- What is wrong with a statement. -/
inductive IsRefused (mnemonic operand : List Char) (position : UInt16) : Problem → Prop
  | unknownDirective {name : List Char} (directive : mnemonic = '.' :: name)
    (other : ¬ IsByte name) : IsRefused mnemonic operand position (.unknownDirective mnemonic)
  | noValues {name : List Char} (directive : mnemonic = '.' :: name) (byte : IsByte name)
    (empty : operand = []) : IsRefused mnemonic operand position .noValues
  /-- The first piece that is no value. -/
  | badValue {name piece : List Char} {before after : List (List Char)}
    (directive : mnemonic = '.' :: name) (byte : IsByte name) (nonempty : operand ≠ [])
    (cut : pieces ',' operand = before ++ piece :: after)
    (values : ∀ p ∈ before, AddressingMode.zeroPage.parse? p ≠ none)
    (bad : AddressingMode.zeroPage.parse? piece = none) :
    IsRefused mnemonic operand position (.badValue piece)
  | unknownMnemonic (plain : ∀ name, mnemonic ≠ '.' :: name)
    (unknown : Instruction.ofMnemonic? mnemonic = none) :
    IsRefused mnemonic operand position (.unknownMnemonic mnemonic)
  | missingOperand {i : Instruction} (known : Instruction.ofMnemonic? mnemonic = some i)
    (plain : i.isBranch = false) (none : ¬ Takes i operand) (empty : operand = []) :
    IsRefused mnemonic operand position (.missingOperand i)
  | badOperand {i : Instruction} (known : Instruction.ofMnemonic? mnemonic = some i)
    (plain : i.isBranch = false) (none : ¬ Takes i operand) (nonempty : operand ≠ []) :
    IsRefused mnemonic operand position (.badOperand i operand)
  /-- Neither an offset nor an address nor a label. -/
  | badTarget {i : Instruction} (known : Instruction.ofMnemonic? mnemonic = some i)
    (branch : i.isBranch = true) (offset : AddressingMode.relative.parse? operand = none)
    (address : AddressingMode.absolute.parse? operand = none)
    (label : Label.isLabel operand = false) :
    IsRefused mnemonic operand position (.badTarget i operand)
  /-- An address that no offset leads to. -/
  | unreached {i : Instruction} {low high : UInt8}
    (known : Instruction.ofMnemonic? mnemonic = some i) (branch : i.isBranch = true)
    (offset : AddressingMode.relative.parse? operand = none)
    (address : AddressingMode.absolute.parse? operand = some [low, high])
    (far : ∀ offset, reach position offset ≠ (word low high).toNat) :
    IsRefused mnemonic operand position (.branchOutOfRange (word low high) (position + 2))

variable {i : Instruction} {mnemonic operand : List Char} {position : UInt16} {line : Nat}
  {problem : Problem}

theorem values_eq_error_iff {texts : List (List Char)} : values texts = .error problem ↔
    ∃ before piece after, texts = before ++ piece :: after ∧
      (∀ p ∈ before, AddressingMode.zeroPage.parse? p ≠ none) ∧
      AddressingMode.zeroPage.parse? piece = none ∧ problem = .badValue piece := by
  induction texts with
  | nil => simp [values]
  | cons text rest ih =>
    unfold values
    cases ht : AddressingMode.zeroPage.parse? text with
    | none =>
      constructor
      · rintro ⟨⟩
        exact ⟨[], text, rest, rfl, List.forall_mem_nil _, ht, rfl⟩
      · rintro ⟨_ | ⟨first, before⟩, piece, after, hcut, hbefore, -, rfl⟩
        · cases hcut
          rfl
        · cases hcut
          exact absurd ht (List.forall_mem_cons.mp hbefore).1
    | some bytes =>
      have hmap : (values rest).map (fun others => bytes ++ others) = .error problem ↔
          values rest = .error problem := by
        cases values rest <;> simp [Except.map]
      refine hmap.trans (ih.trans ⟨?_, ?_⟩)
      · rintro ⟨before, piece, after, rfl, hbefore, hpiece, rfl⟩
        have hfirst : AddressingMode.zeroPage.parse? text ≠ none := by
          rw [ht]
          exact Option.some_ne_none bytes
        exact ⟨text :: before, piece, after, rfl, List.forall_mem_cons.mpr ⟨hfirst, hbefore⟩, hpiece,
          rfl⟩
      · rintro ⟨_ | ⟨first, before⟩, piece, after, hcut, hbefore, hpiece, rfl⟩
        · cases hcut
          rw [ht] at hpiece
          cases hpiece
        · cases hcut
          exact ⟨before, piece, after, rfl, (List.forall_mem_cons.mp hbefore).2, hpiece, rfl⟩

theorem opcode?_relative_ne_none (h : i.isBranch = true) : i.opcode? .relative ≠ none := by
  have hall : ∀ i ∈ Instruction.all, i.isBranch = true → i.opcode? .relative ≠ none := by
    decide +kernel
  exact hall i (Instruction.mem_all i) h

theorem literal?_eq_none_iff : literal? i operand AddressingMode.all = none ↔
    ¬ ∃ op bytes, i.opcode? op.mode = some op ∧ op.mode.parse? operand = some bytes := by
  rw [Option.eq_none_iff_forall_ne_some]
  constructor
  · rintro h ⟨op, bytes, hop⟩
    exact h (op, bytes) (literal?_eq_some_iff.mpr hop)
  · rintro h ⟨op, bytes⟩ hl
    exact h ⟨op, bytes, literal?_eq_some_iff.mp hl⟩

theorem labelled?_eq_none_iff : labelled? i operand = none ↔
    ¬ (Label.isLabel (splitIndex operand).1 = true ∧ i.opcode? (splitIndex operand).2 ≠ none) := by
  unfold labelled?
  dsimp only
  split <;> simp_all

theorem encode_directive (name operand : List Char) (position : UInt16) (line : Nat) :
    encode ('.' :: name) operand position line =
      if IsByte name then ofByteDirective operand position line
      else .error (.unknownDirective ('.' :: name)) := rfl

theorem encode_plain (plain : ∀ name, mnemonic ≠ '.' :: name) (operand : List Char)
    (position : UInt16) (line : Nat) : encode mnemonic operand position line =
      match Instruction.ofMnemonic? mnemonic with
      | none => .error (.unknownMnemonic mnemonic)
      | some i => ofInstruction i operand position line := by
  unfold encode
  split
  · exact absurd rfl (plain _)
  · rfl

theorem ofByteDirective_eq_error_iff : ofByteDirective operand position line = .error problem ↔
    operand = [] ∧ problem = .noValues ∨
      operand ≠ [] ∧ values (pieces ',' operand) = .error problem := by
  unfold ofByteDirective
  by_cases hempty : operand = []
  · simp [hempty, eq_comm]
  · cases values (pieces ',' operand) <;> simp [hempty, Except.map]

/-- A branch is refused if its operand is nothing that it takes, or an address out of its reach. -/
theorem ofBranch_eq_error_iff (h : i.isBranch = true) :
    ofBranch i operand position line = .error problem ↔
      AddressingMode.relative.parse? operand = none ∧
        ((∃ low high, AddressingMode.absolute.parse? operand = some [low, high] ∧
          branchOffset position (word low high) = .error problem) ∨
        AddressingMode.absolute.parse? operand = none ∧ Label.isLabel operand = false ∧
          problem = .badTarget i operand) := by
  obtain ⟨op, hop⟩ := Option.ne_none_iff_exists'.mp (opcode?_relative_ne_none h)
  unfold ofBranch
  rw [hop]
  dsimp only
  cases hrelative : AddressingMode.relative.parse? operand with
  | some bytes => simp
  | none =>
    cases habsolute : AddressingMode.absolute.parse? operand with
    | none =>
      cases hl : Label.isLabel operand <;> simp [eq_comm]
    | some bytes =>
      obtain ⟨low, high, rfl⟩ := List.length_eq_two.mp (AddressingMode.length_of_parse? habsolute)
      cases ho : branchOffset position (word low high) <;> simp [ho, Except.map]

/-- An instruction that is no branch is refused if it does not take its operand. -/
theorem ofInstruction_eq_error_iff (h : i.isBranch = false) :
    ofInstruction i operand position line = .error problem ↔ ¬ Takes i operand ∧
      problem = if operand = [] then .missingOperand i else .badOperand i operand := by
  have htakes : ¬ Takes i operand ↔
      literal? i (operand.map Char.toUpper) AddressingMode.all = none ∧ labelled? i operand = none := by
    rw [literal?_eq_none_iff, labelled?_eq_none_iff, ← not_or]
    rfl
  rw [htakes]
  unfold ofInstruction
  rw [h]
  cases literal? i (operand.map Char.toUpper) AddressingMode.all with
  | some found => simp
  | none => cases labelled? i operand <;> simp [eq_comm]

/-- **A statement is refused** for what is wrong with it. -/
theorem encode_of_isRefused (h : IsRefused mnemonic operand position problem) (line : Nat) :
    encode mnemonic operand position line = .error problem := by
  cases h with
  | unknownDirective hdirective hother =>
    subst hdirective
    rw [encode_directive, if_neg hother]
  | noValues hdirective hbyte hempty =>
    subst hdirective
    rw [encode_directive, if_pos hbyte, ofByteDirective_eq_error_iff]
    exact Or.inl ⟨hempty, rfl⟩
  | badValue hdirective hbyte hne hcut hvalues hbad =>
    subst hdirective
    rw [encode_directive, if_pos hbyte, ofByteDirective_eq_error_iff]
    exact Or.inr ⟨hne, values_eq_error_iff.mpr ⟨_, _, _, hcut, hvalues, hbad, rfl⟩⟩
  | unknownMnemonic hplain hunknown => rw [encode_plain hplain, hunknown]
  | missingOperand hknown hplain hnone hempty =>
    rw [encode_of_ofMnemonic? hknown, ofInstruction_eq_error_iff hplain, if_pos hempty]
    exact ⟨hnone, rfl⟩
  | badOperand hknown hplain hnone hne =>
    rw [encode_of_ofMnemonic? hknown, ofInstruction_eq_error_iff hplain, if_neg hne]
    exact ⟨hnone, rfl⟩
  | badTarget hknown hbranch hoffset haddress hlabel =>
    rw [encode_of_ofMnemonic? hknown, ofInstruction, if_pos hbranch, ofBranch_eq_error_iff hbranch]
    exact ⟨hoffset, Or.inr ⟨haddress, hlabel, rfl⟩⟩
  | @unreached i low high hknown hbranch hoffset haddress hfar =>
    rw [encode_of_ofMnemonic? hknown, ofInstruction, if_pos hbranch, ofBranch_eq_error_iff hbranch]
    refine ⟨hoffset, Or.inl ⟨low, high, haddress, branchOffset_eq_error_iff.mpr ⟨rfl, ?_⟩⟩⟩
    exact fun offset => mt branchTarget_eq_iff_reach.mp (hfar offset)

/-- There is something wrong with a statement that is refused. -/
theorem isRefused_of_encode (h : encode mnemonic operand position line = .error problem) :
    IsRefused mnemonic operand position problem := by
  by_cases hdot : ∃ name, mnemonic = '.' :: name
  · obtain ⟨name, rfl⟩ := hdot
    rw [encode_directive] at h
    split at h
    · next hbyte =>
      rcases ofByteDirective_eq_error_iff.mp h with ⟨hempty, rfl⟩ | ⟨hne, hv⟩
      · exact .noValues rfl hbyte hempty
      · obtain ⟨before, piece, after, hcut, hvalues, hbad, rfl⟩ := values_eq_error_iff.mp hv
        exact .badValue rfl hbyte hne hcut hvalues hbad
    · next hother =>
      cases h
      exact .unknownDirective rfl hother
  · have hplain : ∀ name, mnemonic ≠ '.' :: name := fun name hn => hdot ⟨name, hn⟩
    rw [encode_plain hplain] at h
    cases hi : Instruction.ofMnemonic? mnemonic with
    | none =>
      rw [hi] at h
      cases h
      exact .unknownMnemonic hplain hi
    | some i =>
      rw [hi] at h
      dsimp only at h
      cases hb : i.isBranch with
      | true =>
        rw [ofInstruction, if_pos hb, ofBranch_eq_error_iff hb] at h
        obtain ⟨hoffset, ⟨low, high, haddress, ho⟩ | ⟨haddress, hlabel, rfl⟩⟩ := h
        · obtain ⟨rfl, hfar⟩ := branchOffset_eq_error_iff.mp ho
          refine .unreached hi hb hoffset haddress fun offset => ?_
          exact mt branchTarget_eq_iff_reach.mpr (hfar offset)
        · exact .badTarget hi hb hoffset haddress hlabel
      | false =>
        obtain ⟨hnone, rfl⟩ := (ofInstruction_eq_error_iff hb).mp h
        by_cases hempty : operand = []
        · rw [if_pos hempty]
          exact .missingOperand hi hb hnone hempty
        · rw [if_neg hempty]
          exact .badOperand hi hb hnone hempty

theorem encode_eq_error_iff : encode mnemonic operand position line = .error problem ↔
    IsRefused mnemonic operand position problem :=
  ⟨isRefused_of_encode, fun h => encode_of_isRefused h line⟩

/-- A statement that nothing is wrong with is encoded. -/
theorem exists_encode (h : ∀ problem, ¬ IsRefused mnemonic operand position problem) (line : Nat) :
    ∃ s, encode mnemonic operand position line = .ok s := by
  cases he : encode mnemonic operand position line with
  | ok s => exact ⟨s, rfl⟩
  | error problem => exact absurd (isRefused_of_encode he) (h problem)

/-- A statement waits for a label that has no address, or for one that it does not reach. -/
inductive IsStranded (symbols : Symbols) (s : Statement) : Problem → Prop
  | undefined {name : List Char} {kind : Reference} (label : s.label = some (name, kind))
    (unknown : symbols.resolve? name = none) : IsStranded symbols s (.undefinedLabel name)
  | unreached {name : List Char} {target : UInt16} (label : s.label = some (name, .relative))
    (known : symbols.resolve? name = some target)
    (far : ∀ offset, reach s.position offset ≠ target.toNat) :
    IsStranded symbols s (.branchOutOfRange target (s.position + 2))

theorem resolve_eq_error_iff {symbols : Symbols} {s : Statement} :
    s.resolve symbols = .error problem ↔ s.IsStranded symbols problem := by
  constructor
  · intro h
    unfold resolve at h
    split at h
    · cases h
    · next name kind hl =>
      split at h
      · next hunknown =>
        cases h
        exact .undefined hl hunknown
      · next target hknown =>
        unfold patch at h
        rw [hl] at h
        cases kind with
        | absolute => cases h
        | relative =>
          cases ho : branchOffset s.position target with
          | ok offset =>
            simp only [ho] at h
            cases h
          | error found =>
            simp only [ho] at h
            cases h
            obtain ⟨rfl, hfar⟩ := branchOffset_eq_error_iff.mp ho
            exact .unreached hl hknown fun offset => mt branchTarget_eq_iff_reach.mpr (hfar offset)
  · rintro (⟨hl, hunknown⟩ | ⟨hl, hknown, hfar⟩)
    · unfold resolve
      simp only [hl, hunknown]
    · have ho := branchOffset_eq_error_iff.mpr
        ⟨rfl, fun offset => mt branchTarget_eq_iff_reach.mp (hfar offset)⟩
      rw [resolve_of_label hl hknown]
      unfold patch
      simp only [hl, ho]
      rfl

end Statement

/-! ### Lines -/

namespace Site

/-- The symbols that some lines define, in their order. -/
def symbols (sites : List Site) : Symbols :=
  ⟨sites.filterMap symbol?⟩

/-- The label of the line, if it has one, is a name, stands in memory, and is not that of an earlier
line. -/
def HasPlace (earlier : List Site) (site : Site) : Prop :=
  ∀ name, site.line.label = some name → Label.isLabel name = true ∧ site.position < memorySize ∧
    ∀ other ∈ earlier, other.line.label ≠ some name

/-- What is wrong with a line behind some earlier ones. The label is looked at first. -/
inductive IsRefused (earlier : List Site) (site : Site) : Problem → Prop
  | invalidLabel {name : List Char} {fault : Label.Fault} (label : site.line.label = some name)
    (broken : Label.fault? name = some fault) : IsRefused earlier site (.invalidLabel fault)
  | labelPastEnd {name : List Char} (label : site.line.label = some name)
    (valid : Label.isLabel name = true) (past : memorySize ≤ site.position) :
    IsRefused earlier site (.labelPastEnd name)
  /-- The number is that of the line that has the label already. -/
  | duplicateLabel {name : List Char} {other : Site} (label : site.line.label = some name)
    (valid : Label.isLabel name = true) (inside : site.position < memorySize)
    (mem : other ∈ earlier) (taken : other.line.label = some name) :
    IsRefused earlier site (.duplicateLabel name other.number)
  | statement {mnemonic : List Char} {problem : Problem} (place : site.HasPlace earlier)
    (has : site.line.mnemonic = some mnemonic)
    (refused : Statement.IsRefused mnemonic site.line.operand (UInt16.ofNat site.position) problem) :
    IsRefused earlier site problem
  | programPastEnd {mnemonic : List Char} (place : site.HasPlace earlier)
    (has : site.line.mnemonic = some mnemonic) (fine : ∀ problem, ¬ Statement.IsRefused mnemonic
      site.line.operand (UInt16.ofNat site.position) problem)
    (past : memorySize < site.position + site.line.width) :
    IsRefused earlier site .programPastEnd

variable {earlier : List Site} {site : Site} {problem : Problem}

/-- A line is refused, or it fits and its label has a place. -/
theorem exists_isRefused_or_fits (earlier : List Site) (site : Site) :
    (∃ problem, site.IsRefused earlier problem) ∨ site.HasPlace earlier ∧ site.Fits := by
  by_cases hplace : site.HasPlace earlier
  · by_cases hrefused : ∃ problem, site.IsRefused earlier problem
    · exact Or.inl hrefused
    · refine Or.inr ⟨hplace, fun name hn => ?_, fun mnemonic hm => ?_⟩
      · obtain ⟨hvalid, hinside, -⟩ := hplace name hn
        exact ⟨hvalid, hinside⟩
      · have hfine : ∀ problem, ¬ Statement.IsRefused mnemonic site.line.operand
            (UInt16.ofNat site.position) problem :=
          fun problem h => hrefused ⟨problem, .statement hplace hm h⟩
        refine ⟨?_, Statement.exists_encode hfine _⟩
        by_contra hpast
        exact hrefused ⟨_, .programPastEnd hplace hm hfine (Nat.not_le.mp hpast)⟩
  · unfold HasPlace at hplace
    push Not at hplace
    obtain ⟨name, hn, hplace⟩ := hplace
    refine Or.inl ?_
    cases hf : Label.fault? name with
    | some fault => exact ⟨_, .invalidLabel hn hf⟩
    | none =>
      have hvalid : Label.isLabel name = true := by
        unfold Label.isLabel
        rw [hf]
        rfl
      rcases Nat.lt_or_ge site.position memorySize with hinside | hpast
      · obtain ⟨other, hmem, htaken⟩ := hplace hvalid hinside
        exact ⟨_, .duplicateLabel hn hvalid hinside hmem htaken⟩
      · exact ⟨_, .labelPastEnd hn hvalid hpast⟩

theorem fits_of_not_isRefused (h : ∀ problem, ¬ site.IsRefused earlier problem) :
    site.HasPlace earlier ∧ site.Fits :=
  (exists_isRefused_or_fits earlier site).resolve_left fun he => he.elim h

theorem find?_eq_none_of_hasPlace {name : List Char} (h : site.HasPlace earlier)
    (hn : site.line.label = some name) : (symbols earlier).find? name = none := by
  have hmem : name ∈ (symbols earlier).toList.map Symbol.name ↔
      ∃ other ∈ earlier, other.line.label = some name := by
    simp [symbols, symbol?, List.mem_filterMap]
  rw [Symbols.find?_eq_none_iff, hmem]
  rintro ⟨other, hother, htaken⟩
  exact (h name hn).2.2 other hother htaken

theorem toList_symbols_append (earlier : List Site) (site : Site) :
    (symbols (earlier ++ [site])).toList = (symbols earlier).toList ++ site.symbol?.toList := by
  unfold symbols
  rw [List.filterMap_append]
  cases hs : site.symbol? <;> simp [hs]

/-- A line that has a place behind some lines leaves their names different. -/
theorem nodup_names_append (hnames : ((symbols earlier).toList.map Symbol.name).Nodup)
    (h : site.HasPlace earlier) :
    ((symbols (earlier ++ [site])).toList.map Symbol.name).Nodup := by
  rw [toList_symbols_append]
  cases hl : site.line.label with
  | none => simpa [symbol?, hl] using hnames
  | some name =>
    have hfree := Symbols.find?_eq_none_iff.mp (find?_eq_none_of_hasPlace h hl)
    have hsymbol : site.symbol? = some ⟨name, UInt16.ofNat site.position, site.number⟩ := by
      rw [symbol?, hl]
      rfl
    rw [List.map_append, hsymbol]
    exact List.Nodup.append hnames (List.nodup_singleton name) (by simpa using hfree)

end Site

namespace Layout

variable {earlier : List Site} {site : Site} {problem : Problem}

theorem placeLabel_of_hasPlace (h : site.HasPlace earlier) :
    ∃ after, placeLabel (Site.symbols earlier) site.position site.number site.line.label =
      .ok after := by
  refine ⟨⟨_⟩, placeLabel_eq_ok_iff.mpr ⟨fun name hn => ?_, rfl⟩⟩
  exact ⟨(h name hn).1, (h name hn).2.1, Site.find?_eq_none_of_hasPlace h hn⟩

/-- **A line is refused** for what is wrong with it. -/
theorem ofLine_of_isRefused (hnames : ((Site.symbols earlier).toList.map Symbol.name).Nodup)
    (h : site.IsRefused earlier problem) :
    ofLine (Site.symbols earlier) site.position site.number site.line = .error problem := by
  unfold ofLine
  cases h with
  | invalidLabel hl hbroken => simp only [hl, placeLabel, hbroken]
  | labelPastEnd hl hvalid hpast =>
    simp only [hl, placeLabel, Label.fault?_of_isLabel hvalid, Nat.not_lt.mpr hpast, if_false]
  | @duplicateLabel name other hl hvalid hinside hmem htaken =>
    have hsymbol : ⟨name, UInt16.ofNat other.position, other.number⟩ ∈
        (Site.symbols earlier).toList :=
      List.mem_filterMap.mpr ⟨other, hmem, by rw [Site.symbol?, htaken]; rfl⟩
    have hfind := Symbols.find?_eq_some_of_mem hnames hsymbol
    simp only [hl, placeLabel, Label.fault?_of_isLabel hvalid, hinside, if_true, Symbols.define, hfind]
  | statement hplace hm hrefused =>
    obtain ⟨after, ha⟩ := placeLabel_of_hasPlace hplace
    simp only [ha, placeStatement, hm, Statement.encode_of_isRefused hrefused]
  | programPastEnd hplace hm hfine hpast =>
    obtain ⟨after, ha⟩ := placeLabel_of_hasPlace hplace
    obtain ⟨s, hs⟩ := Statement.exists_encode hfine site.number
    have hwidth : s.bytes.length = site.line.width := by
      rw [(Statement.stands_encode hs).1.length_bytes, Line.width, hm]
    simp only [ha, placeStatement, hm, hs, hwidth, Nat.not_le.mpr hpast, if_false]

/-- A line that has a place and fits is placed there. -/
theorem ofLine_of_fits (hnames : ((Site.symbols earlier).toList.map Symbol.name).Nodup)
    (hplace : site.HasPlace earlier) (hfits : site.Fits) :
    ofLine (Site.symbols earlier) site.position site.number site.line =
      .ok ⟨site.statement?.toList, Site.symbols (earlier ++ [site]),
        site.position + site.line.width⟩ := by
  have hafter := Site.nodup_names_append hnames hplace
  rw [Site.toList_symbols_append] at hafter
  refine (ofLine_eq_ok_iff_of_site site hnames).mpr ⟨hfits, hafter, ?_⟩
  rw [← Site.toList_symbols_append]

end Layout

end Nmos6502
