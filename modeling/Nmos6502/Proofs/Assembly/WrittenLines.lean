import Nmos6502.Proofs.Assembly.LineParts

/-!
# Lines as they are written

A line can be written in many ways: with blanks around its parts, with blanks put into its operand
(`Spread`), and with a comment. `Line.IsWritten` says that a text is one of these ways, part by part,
and does not mention how a text is read.

Every text is a way of writing the parts that are read from it (`Line.isWritten_parse`). As long as no
part holds a colon, the parts cannot be found elsewhere in the text (`Line.parse_of_isWritten`), so the
texts that are read as a line are exactly the ways of writing it (`Line.recovers_what_was_written`).
-/

namespace Nmos6502

/-! ### Blanks in a text -/

/-- A text with blanks put in anywhere. -/
inductive Spread : List Char → List Char → Prop
  | nil : Spread [] []
  | blank {text spread : List Char} {c : Char} (hc : isBlank c = true) (h : Spread text spread) :
    Spread text (c :: spread)
  | keep {text spread : List Char} (c : Char) (h : Spread text spread) :
    Spread (c :: text) (c :: spread)

namespace Spread

variable {text spread : List Char}

theorem mem_or_isBlank (h : Spread text spread) {c : Char} (hc : c ∈ spread) :
    c ∈ text ∨ isBlank c = true := by
  induction h with
  | nil => cases hc
  | blank hblank h ih =>
    rcases List.mem_cons.mp hc with rfl | hc
    · exact Or.inr hblank
    · exact ih hc
  | keep d h ih =>
    rcases List.mem_cons.mp hc with rfl | hc
    · exact Or.inl (List.mem_cons_self ..)
    · exact (ih hc).imp_left (List.mem_cons_of_mem _)

/-- Squeezing takes out the blanks that were put in. -/
theorem squeeze_eq (h : Spread text spread) (hink : ∀ c ∈ text, isBlank c = false) :
    squeeze spread = text := by
  induction h with
  | nil => rfl
  | @blank text spread c hc h ih =>
    have hsqueeze : squeeze (c :: spread) = squeeze spread := List.filter_cons_of_neg (by simp [hc])
    rw [hsqueeze, ih hink]
  | @keep text spread c h ih =>
    obtain ⟨hc, hrest⟩ := List.forall_mem_cons.mp hink
    have hsqueeze : squeeze (c :: spread) = c :: squeeze spread :=
      List.filter_cons_of_pos (by simp [hc])
    rw [hsqueeze, ih hrest]

/-- A text is its squeezed form with blanks put in. -/
theorem of_squeeze (text : List Char) : Spread (squeeze text) text := by
  induction text with
  | nil => exact nil
  | cons c rest ih =>
    by_cases hc : isBlank c = true
    · have hsqueeze : squeeze (c :: rest) = squeeze rest := List.filter_cons_of_neg (by simp [hc])
      rw [hsqueeze]
      exact ih.blank hc
    · have hsqueeze : squeeze (c :: rest) = c :: squeeze rest :=
        List.filter_cons_of_pos (by simp [hc])
      rw [hsqueeze]
      exact ih.keep c

end Spread

/-- Blanks around a word are trimmed. -/
theorem trim_between_blanks {left word right : List Char} (hl : ∀ c ∈ left, isBlank c = true)
    (hw : ∀ c ∈ word, isBlank c = false) (hr : ∀ c ∈ right, isBlank c = true) :
    trim (left ++ word ++ right) = word := by
  have hleft : trimLeft word = word := by
    cases word with
    | nil => rfl
    | cons c rest => exact List.dropWhile_cons_of_neg (by simp [hw c (List.mem_cons_self ..)])
  have hright : trimLeft word.reverse = word.reverse := by
    cases hrev : word.reverse with
    | nil => rfl
    | cons c rest =>
      have hc : c ∈ word := List.mem_reverse.mp (by rw [hrev]; exact List.mem_cons_self ..)
      exact List.dropWhile_cons_of_neg (by simp [hw c hc])
  rw [trim_append_blanks hr, trim_blanks_append hl]
  unfold trim trimRight
  rw [hleft, hright, List.reverse_reverse]

namespace Line

/-! ### Ways of writing the parts of a line -/

/-- How a label stands in front of a line: between blanks, with a colon behind. -/
inductive WritesLabel : Option (List Char) → List Char → Prop
  | none : WritesLabel none []
  | some {name before after : List Char} (hbefore : ∀ c ∈ before, isBlank c = true)
    (hafter : ∀ c ∈ after, isBlank c = true) :
    WritesLabel (some name) (before ++ name ++ after ++ [':'])

/-- How a statement is written: the mnemonic and the operand between blanks, of which one at least
parts the two, and blanks in the operand. -/
inductive WritesStatement : Option (List Char) → List Char → List Char → Prop
  | none {blanks : List Char} (hblanks : ∀ c ∈ blanks, isBlank c = true) :
    WritesStatement none [] blanks
  | some {word operand before gap spread after : List Char}
    (hbefore : ∀ c ∈ before, isBlank c = true) (hgap : ∀ c ∈ gap, isBlank c = true)
    (hparts : operand ≠ [] → gap ≠ []) (hspread : Spread operand spread)
    (hafter : ∀ c ∈ after, isBlank c = true) :
    WritesStatement (some word) operand (before ++ word ++ (gap ++ spread ++ after))

/-- How a comment is written. -/
inductive WritesComment : List Char → Prop
  | none : WritesComment []
  | some (comment : List Char) : WritesComment (';' :: comment)

/-- **A text is a way of writing a line**: label, statement and comment one behind the other. -/
def IsWritten (line : Line) (text : List Char) : Prop :=
  ∃ label statement comment, WritesLabel line.label label ∧
    WritesStatement line.mnemonic line.operand statement ∧ WritesComment comment ∧
    text = label ++ statement ++ comment

/-- The words of a line are not empty, its label is plain, and its statement consists of certain
characters. -/
structure IsMadeOf (p : Char → Prop) (line : Line) : Prop where
  label : ∀ name ∈ line.label, name ≠ [] ∧ ∀ c ∈ name, IsPlain c
  mnemonic : ∀ word ∈ line.mnemonic, word ≠ [] ∧ ∀ c ∈ word, p c
  operand : ∀ c ∈ line.operand, p c
  /-- Only a mnemonic has an operand. -/
  statement : line.operand ≠ [] → line.mnemonic ≠ none

variable {line : Line} {mnemonic : Option (List Char)} {operand statement text : List Char}

/-! ### From the written text to the parts -/

theorem WritesStatement.not_mem {d : Char} (h : WritesStatement mnemonic operand statement)
    (hd : isBlank d = false) (hm : ∀ word ∈ mnemonic, d ∉ word) (ho : d ∉ operand) :
    d ∉ statement := by
  have hblanks : ∀ {blanks : List Char}, (∀ c ∈ blanks, isBlank c = true) → d ∉ blanks :=
    fun hb hc => ne_of_isBlank (hb d hc) hd rfl
  cases h with
  | none h => exact hblanks h
  | some hbefore hgap hparts hspread hafter =>
    have hin : d ∉ _ := fun hc => by
      rcases hspread.mem_or_isBlank hc with hc | hc
      · exact ho hc
      · exact ne_of_isBlank hc hd rfl
    simp only [List.mem_append, not_or]
    exact ⟨⟨hblanks hbefore, hm _ rfl⟩, ⟨hblanks hgap, hin⟩, hblanks hafter⟩

theorem WritesLabel.not_mem {name : Option (List Char)} {label : List Char} {d : Char}
    (h : WritesLabel name label) (hd : isBlank d = false) (hcolon : d ≠ ':')
    (hn : ∀ word ∈ name, d ∉ word) : d ∉ label := by
  cases h with
  | none => exact List.not_mem_nil
  | some hbefore hafter =>
    simp only [List.mem_append, List.mem_singleton, not_or]
    exact ⟨⟨⟨fun hc => ne_of_isBlank (hbefore _ hc) hd rfl, hn _ rfl⟩,
      fun hc => ne_of_isBlank (hafter _ hc) hd rfl⟩, hcolon⟩

/-- A written statement has its mnemonic and its operand. -/
theorem ofStatement_of_writesStatement (h : WritesStatement mnemonic operand statement)
    (hm : ∀ word ∈ mnemonic, word ≠ [] ∧ ∀ c ∈ word, isBlank c = false)
    (ho : ∀ c ∈ operand, isBlank c = false) :
    ofStatement statement = ⟨none, mnemonic, operand⟩ := by
  cases h with
  | none hblanks => exact ofStatement_of_trimLeft_eq_nil (List.dropWhile_eq_nil_iff.mpr hblanks)
  | @some word _ before gap spread after hbefore hgap hparts hspread hafter =>
    obtain ⟨hne, hink⟩ := hm word rfl
    have hrest : (gap ++ spread ++ after).takeWhile isInk = [] := by
      cases gap with
      | cons c others =>
        have hc : isInk c = false := isInk_eq_false_iff.mpr (hgap c (List.mem_cons_self ..))
        exact List.takeWhile_cons_of_neg (by simp [hc])
      | nil =>
        -- without a gap there is no operand, and blanks only in its place
        obtain rfl : operand = [] := not_not.mp fun h => hparts h rfl
        refine takeWhile_isInk_blanks fun c hc => ?_
        rcases List.mem_append.mp hc with hc | hc
        · exact (hspread.mem_or_isBlank hc).resolve_left List.not_mem_nil
        · exact hafter c hc
    have hcut : IsCut before word (gap ++ spread ++ after) :=
      ⟨hbefore, hne, fun c hc => by simp [isInk, hink c hc], hrest⟩
    rw [hcut.ofStatement_eq, squeeze_append, squeeze_append, squeeze_blanks hgap,
      squeeze_blanks hafter, hspread.squeeze_eq ho, List.nil_append, List.append_nil]

/-- Written code has its parts. -/
theorem ofCode_of_writes {label : List Char} (hline : line.IsMadeOf IsPlain)
    (hl : WritesLabel line.label label)
    (hs : WritesStatement line.mnemonic line.operand statement) : ofCode (label ++ statement) = line := by
  have hstatement : ofStatement statement = ⟨none, line.mnemonic, line.operand⟩ :=
    ofStatement_of_writesStatement hs
      (fun word hw => ⟨(hline.mnemonic word hw).1, fun c hc => ((hline.mnemonic word hw).2 c hc).1⟩)
      fun c hc => (hline.operand c hc).1
  obtain ⟨name?, mnemonic, operand⟩ := line
  dsimp only at hl hs hstatement
  cases hl with
  | none =>
    have hcolon : ':' ∉ statement := hs.not_mem isBlank_colon
      (fun word hw hc => ((hline.mnemonic word hw).2 _ hc).2.1 rfl)
      fun hc => (hline.operand _ hc).2.1 rfl
    have hlabel : ¬ HasLabel statement := fun h => hcolon h.1
    unfold ofCode
    rw [List.nil_append, if_neg hlabel, hstatement]
  | @some name before after hbefore hafter =>
    obtain ⟨hne, hplain⟩ := hline.label name rfl
    have hink : ∀ c ∈ name, isBlank c = false := fun c hc => (hplain c hc).1
    have hcolon : ':' ∉ before ++ name ++ after := by
      simp only [List.mem_append, not_or]
      exact ⟨⟨fun hc => ne_of_isBlank (hbefore _ hc) isBlank_colon rfl,
        fun hc => (hplain _ hc).2.1 rfl⟩, fun hc => ne_of_isBlank (hafter _ hc) isBlank_colon rfl⟩
    obtain ⟨htake, hdrop⟩ := takeWhile_colon_cons hcolon statement
    have htrim : trim (before ++ name ++ after) = name := trim_between_blanks hbefore hink hafter
    have hlabel : HasLabel (before ++ name ++ after ++ ':' :: statement) := by
      unfold HasLabel
      rw [htake, htrim]
      exact ⟨by simp, hne, List.any_eq_false.mpr fun c hc => by simp [hink c hc]⟩
    unfold ofCode
    rw [List.append_assoc _ [':'], List.singleton_append, if_pos hlabel, htake, hdrop, htrim,
      hstatement]

/-- **Reading a written line** gives its parts back. -/
theorem parse_of_isWritten (hline : line.IsMadeOf IsPlain) (h : line.IsWritten text) :
    parse text = line := by
  obtain ⟨label, statement, comment, hl, hs, hc, rfl⟩ := h
  have hstatement : ';' ∉ statement := hs.not_mem rfl
    (fun word hw hc => ((hline.mnemonic word hw).2 _ hc).2.2 rfl)
    fun hc => (hline.operand _ hc).2.2 rfl
  have hlabel : ';' ∉ label := hl.not_mem rfl (by decide)
    fun name hn hc => ((hline.label name hn).2 _ hc).2.2 rfl
  have hcode : (label ++ statement ++ comment).takeWhile (· != ';') = label ++ statement := by
    have hpos : ∀ c ∈ label ++ statement, (c != ';') = true := fun c hc => by
      simp only [bne_iff_ne, ne_eq]
      rintro rfl
      exact (List.mem_append.mp hc).elim hlabel hstatement
    rw [List.takeWhile_append_of_pos hpos]
    cases hc with
    | none => exact List.append_nil _
    | some comment => exact List.append_nil _
  rw [parse_eq, hcode]
  exact ofCode_of_writes hline hl hs

/-! ### From the parts to the written text -/

theorem writesComment_dropWhile (text : List Char) : WritesComment (text.dropWhile (· != ';')) := by
  have hhead := List.head?_dropWhile_not (· != ';') text
  cases h : text.dropWhile (· != ';') with
  | nil => exact .none
  | cons c rest =>
    rw [h] at hhead
    obtain rfl : c = ';' := by simpa using hhead
    exact .some rest

/-- Every statement is a way of writing its mnemonic and its operand. -/
theorem writesStatement_ofStatement (statement : List Char) :
    WritesStatement (ofStatement statement).mnemonic (ofStatement statement).operand statement := by
  by_cases hs : trimLeft statement = []
  · rw [ofStatement_of_trimLeft_eq_nil hs]
    exact .none (List.dropWhile_eq_nil_iff.mp hs)
  · obtain ⟨lead, rest, hstatement, hcut⟩ :=
      exists_isCut (congrArg Line.mnemonic (ofStatement_of_trimLeft_ne_nil hs))
    rw [hstatement, hcut.ofStatement_eq]
    cases rest with
    | nil => exact .some hcut.lead (List.forall_mem_nil _) nofun .nil (List.forall_mem_nil _)
    | cons c others =>
      have hc := hcut.isBlank_head
      have hsqueeze : squeeze (c :: others) = squeeze others :=
        List.filter_cons_of_neg (by simp [hc])
      have hrest : c :: others = [c] ++ others ++ [] := by rw [List.append_nil]; rfl
      rw [hsqueeze, hrest]
      exact .some hcut.lead (List.forall_mem_singleton.mpr hc) (fun _ => List.cons_ne_nil _ _)
        (Spread.of_squeeze others) (List.forall_mem_nil _)

/-- **Every text** is a way of writing the parts that are read from it. -/
theorem isWritten_parse (text : List Char) : (parse text).IsWritten text := by
  have htext : text = text.takeWhile (· != ';') ++ text.dropWhile (· != ';') :=
    List.takeWhile_append_dropWhile.symm
  rw [parse_eq]
  by_cases hl : HasLabel (text.takeWhile (· != ';'))
  · obtain ⟨before, after, hcode, hn⟩ := List.eq_append_cons_of_mem hl.1
    obtain ⟨htake, hdrop⟩ := takeWhile_colon_cons hn after
    obtain ⟨left, right, hleft, hright, hbefore⟩ := exists_append_trim_append before
    unfold ofCode
    rw [if_pos hl, hcode, htake, hdrop]
    refine ⟨left ++ trim before ++ right ++ [':'], after, text.dropWhile (· != ';'),
      .some hleft hright, writesStatement_ofStatement after, writesComment_dropWhile text, ?_⟩
    rw [← hbefore, List.append_assoc before, List.singleton_append, ← hcode]
    exact htext
  · unfold ofCode
    rw [if_neg hl]
    refine ⟨[], text.takeWhile (· != ';'), text.dropWhile (· != ';'), ?_,
      writesStatement_ofStatement _, writesComment_dropWhile text, htext⟩
    rw [← ofStatement_without_label]
    exact .none

/-- A character that stands in a word of some code. -/
def IsKept (c : Char) : Prop :=
  isBlank c = false ∧ c ≠ ';'

theorem isMadeOf_ofStatement (h : ∀ c ∈ statement, c ≠ ';') :
    (ofStatement statement).IsMadeOf IsKept := by
  by_cases hs : trimLeft statement = []
  · rw [ofStatement_of_trimLeft_eq_nil hs]
    exact ⟨nofun, nofun, List.forall_mem_nil _, fun h => absurd rfl h⟩
  · obtain ⟨lead, rest, hstatement, hcut⟩ :=
      exists_isCut (congrArg Line.mnemonic (ofStatement_of_trimLeft_ne_nil hs))
    generalize (trimLeft statement).takeWhile isInk = word at hstatement hcut
    subst hstatement
    rw [hcut.ofStatement_eq]
    refine ⟨nofun, ?_, fun c hc => ?_, fun _ => nofun⟩
    · rintro _ ⟨⟩
      refine ⟨hcut.ne_nil, fun c hc => ⟨by simpa [isInk] using hcut.word c hc, ?_⟩⟩
      exact h c (List.mem_append_left _ (List.mem_append_right _ hc))
    · have hrest := (List.mem_filter.mp hc).1
      exact ⟨not_isBlank_of_mem_squeeze hc, h c (List.mem_append_right _ hrest)⟩

/-- **The parts of every text** are words without blanks and semicolons. -/
theorem isMadeOf_parse (text : List Char) : (parse text).IsMadeOf IsKept := by
  have hcode : ∀ c ∈ text.takeWhile (· != ';'), c ≠ ';' := fun c hc => by
    simpa using List.mem_takeWhile_imp hc
  rw [parse_eq]
  generalize text.takeWhile (· != ';') = code at hcode
  unfold ofCode
  split
  · next hl =>
    obtain ⟨before, after, rfl, hn⟩ := List.eq_append_cons_of_mem hl.1
    obtain ⟨htake, hdrop⟩ := takeWhile_colon_cons hn after
    obtain ⟨-, hne, hink⟩ := hl
    rw [htake] at hne hink ⊢
    rw [hdrop]
    obtain ⟨-, hmnemonic, hoperand, hstatement⟩ := @isMadeOf_ofStatement after
      fun c hc => hcode c (List.mem_append_right _ (List.mem_cons_of_mem _ hc))
    refine ⟨?_, hmnemonic, hoperand, hstatement⟩
    rintro _ ⟨⟩
    obtain ⟨left, right, -, -, hbefore⟩ := exists_append_trim_append before
    have hmem : ∀ c ∈ trim before, c ∈ before := fun c hc => by
      rw [hbefore]
      exact List.mem_append_left _ (List.mem_append_right _ hc)
    refine ⟨hne, fun c hc => ⟨by simpa using List.any_eq_false.mp hink c hc, ?_, ?_⟩⟩
    · rintro rfl
      exact hn (hmem _ hc)
    · exact hcode c (List.mem_append_left _ (hmem c hc))
  · exact isMadeOf_ofStatement hcode

/-! ### What was written -/

/-- Reading a text recovers what was written. -/
structure Recovers (text : List Char) : Prop where
  /-- The text is read as a line with plain parts just if it is a way of writing the line. -/
  plain : ∀ {line : Line}, line.IsMadeOf IsPlain → (parse text = line ↔ line.IsWritten text)
  /-- Whatever the text is, it is a way of writing what is read from it. -/
  written : (parse text).IsWritten text
  /-- Whatever the text is, no blank and no semicolon is read from it. -/
  made : (parse text).IsMadeOf IsKept

/-- **Reading a line recovers what was written.** -/
theorem recovers_what_was_written (text : List Char) : Recovers text where
  plain hline := by
    constructor
    · rintro rfl
      exact isWritten_parse text
    · exact parse_of_isWritten hline
  written := isWritten_parse text
  made := isMadeOf_parse text

/-- Colons in a comment and blanks before the colon of a label or in an operand do not disturb. -/
theorem recovers_what_was_written_among_colons :
    parse " go :\tlda $1 , x; a: b".toList =
      ⟨some ['g', 'o'], some ['l', 'd', 'a'], ['$', '1', ',', 'x']⟩ := by
  have hblank : ∀ {c : Char}, isBlank c = true → ∀ d ∈ [c], isBlank d = true := fun h =>
    List.forall_mem_singleton.mpr h
  have hline : IsMadeOf IsPlain ⟨some ['g', 'o'], some ['l', 'd', 'a'], ['$', '1', ',', 'x']⟩ := by
    refine ⟨?_, ?_, forall_mem_of_all (by decide), fun _ => nofun⟩
    · rintro _ ⟨⟩
      exact ⟨List.cons_ne_nil _ _, forall_mem_of_all (by decide)⟩
    · rintro _ ⟨⟩
      exact ⟨List.cons_ne_nil _ _, forall_mem_of_all (by decide)⟩
  refine ((recovers_what_was_written _).plain hline).mpr
    ⟨[' '] ++ ['g', 'o'] ++ [' '] ++ [':'],
      ['\t'] ++ ['l', 'd', 'a'] ++ ([' '] ++ ['$', '1', ' ', ',', ' ', 'x'] ++ []), "; a: b".toList,
      .some (hblank rfl) (hblank rfl), .some (hblank rfl) (hblank rfl) (fun _ => List.cons_ne_nil _ _)
        ?_ (List.forall_mem_nil _), .some _, by decide⟩
  exact .keep _ (.keep _ (.blank rfl (.keep _ (.blank rfl (.keep _ .nil)))))

end Line

end Nmos6502
