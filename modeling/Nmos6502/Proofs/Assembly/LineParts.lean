import Nmos6502.Assembly.Line
import Nmos6502.Proofs.Text.Lines

/-!
# The parts of a line

A line is trimmed three times before its parts are taken out of it. The trimming at the ends makes no
difference to the parts, so they can be read off the untrimmed text (`Line.parse_eq`): the code is
what stands before the first semicolon, a label is the one word before the first colon, and a
statement is its first word and, squeezed, what follows it (`Line.ofStatement`).

With that, a line can be rewritten in place: `Line.replaceOperand` puts another operand where the
operand of a line stands and keeps all the rest of the text, and the parts of the new line are those
of the old one but for the operand (`Line.parse_replaceOperand`).
-/

namespace Nmos6502

/-! ### Characters that are no blanks -/

theorem ne_of_isBlank {c d : Char} (hc : isBlank c = true) (hd : isBlank d = false) : c ≠ d := by
  rintro rfl
  rw [hc] at hd
  cases hd

theorem isBlank_colon : isBlank ':' = false := rfl

theorem trimRight_append_blanks {blanks : List Char} (h : ∀ c ∈ blanks, isBlank c = true)
    (text : List Char) : trimRight (text ++ blanks) = trimRight text := by
  unfold trimRight
  rw [List.reverse_append, trimLeft_blanks_append fun c hc => h c (List.mem_reverse.mp hc)]

/-- Blanks around a text are trimmed with it, unless the text is nothing but blanks itself. -/
theorem trim_append_blanks {blanks : List Char} (h : ∀ c ∈ blanks, isBlank c = true)
    (text : List Char) : trim (text ++ blanks) = trim text := by
  unfold trim
  unfold trimLeft
  rw [List.dropWhile_append]
  split
  · next he =>
    rw [List.isEmpty_iff.mp he, List.dropWhile_eq_nil_iff.mpr h]
  · exact trimRight_append_blanks h _

theorem trim_blanks_append {blanks : List Char} (h : ∀ c ∈ blanks, isBlank c = true)
    (text : List Char) : trim (blanks ++ text) = trim text := by
  unfold trim
  rw [trimLeft_blanks_append h]

/-- A carriage return that a line has lost is trimmed with the blanks at its end. -/
theorem trim_withoutReturn (line : List Char) : trim (withoutReturn line) = trim line := by
  rcases withoutReturn_cases line with h | h
  · rw [h]
  · conv => rhs; rw [h]
    exact (trim_append_blanks (List.forall_mem_singleton.mpr rfl) _).symm

/-- A text is its trimmed form with blanks around it. -/
theorem exists_append_trim_append (text : List Char) : ∃ left right,
    (∀ c ∈ left, isBlank c = true) ∧ (∀ c ∈ right, isBlank c = true) ∧
      text = left ++ trim text ++ right := by
  obtain ⟨left, hl, ht⟩ := exists_trimLeft_append text
  obtain ⟨right, hr, ht'⟩ := exists_trimRight_append (trimLeft text)
  refine ⟨left, right, hl, hr, ?_⟩
  rw [List.append_assoc]
  conv => lhs; rw [ht, ht']
  rfl

namespace Line

/-- A character that divides nothing in a line. -/
def IsPlain (c : Char) : Prop :=
  isBlank c = false ∧ c ≠ ':' ∧ c ≠ ';'

instance (c : Char) : Decidable (IsPlain c) := by
  unfold IsPlain; infer_instance

/-! ### Statements -/

/-- The mnemonic and the operand of what is left of a line without its label. -/
def ofStatement (statement : List Char) : Line :=
  match trimLeft statement with
  | [] => ⟨none, none, []⟩
  | body => ⟨none, some (body.takeWhile isInk), squeeze (body.dropWhile isInk)⟩

theorem ofStatement_of_trimLeft_eq_nil {statement : List Char} (h : trimLeft statement = []) :
    ofStatement statement = ⟨none, none, []⟩ := by
  unfold ofStatement
  rw [h]

theorem ofStatement_of_trimLeft_ne_nil {statement : List Char} (h : trimLeft statement ≠ []) :
    ofStatement statement = ⟨none, some ((trimLeft statement).takeWhile isInk),
      squeeze ((trimLeft statement).dropWhile isInk)⟩ := by
  unfold ofStatement
  split
  · next hn => exact absurd hn h
  · rfl

theorem ofStatement_without_label (statement : List Char) :
    { ofStatement statement with label := none } = ofStatement statement := by
  unfold ofStatement
  split <;> rfl

theorem ofStatement_blanks_append {blanks : List Char} (h : ∀ c ∈ blanks, isBlank c = true)
    (statement : List Char) : ofStatement (blanks ++ statement) = ofStatement statement := by
  unfold ofStatement
  rw [trimLeft_blanks_append h]

theorem ofStatement_append_blanks {blanks : List Char} (h : ∀ c ∈ blanks, isBlank c = true)
    (statement : List Char) : ofStatement (statement ++ blanks) = ofStatement statement := by
  have hcut : trimLeft (statement ++ blanks) =
      if (trimLeft statement).isEmpty then [] else trimLeft statement ++ blanks := by
    unfold trimLeft
    rw [List.dropWhile_append, List.dropWhile_eq_nil_iff.mpr h]
  by_cases hs : trimLeft statement = []
  · have : trimLeft (statement ++ blanks) = [] := by rw [hcut, hs]; rfl
    rw [ofStatement_of_trimLeft_eq_nil hs, ofStatement_of_trimLeft_eq_nil this]
  · have hc : trimLeft (statement ++ blanks) = trimLeft statement ++ blanks := by
      rw [hcut, if_neg (by simpa [List.isEmpty_iff] using hs)]
    have hne : trimLeft (statement ++ blanks) ≠ [] := by simp [hc, hs]
    rw [ofStatement_of_trimLeft_ne_nil hs, ofStatement_of_trimLeft_ne_nil hne, hc,
      takeWhile_isInk_append_blanks _ h, squeeze_dropWhile_isInk_append_blanks _ h]

theorem ofStatement_trim (statement : List Char) :
    ofStatement (trim statement) = ofStatement statement := by
  obtain ⟨left, right, hl, hr, ht⟩ := exists_append_trim_append statement
  conv => rhs; rw [ht, ofStatement_append_blanks hr, ofStatement_blanks_append hl]

/-! ### Labels -/

/-- Whether what stands before the first colon of some code is one word. -/
def HasLabel (code : List Char) : Prop :=
  ':' ∈ code ∧ trim (code.takeWhile (· != ':')) ≠ [] ∧
    (trim (code.takeWhile (· != ':'))).any isBlank = false

instance (code : List Char) : Decidable (HasLabel code) := by
  unfold HasLabel; infer_instance

/-- The parts of some code. -/
def ofCode (code : List Char) : Line :=
  if HasLabel code then
    { ofStatement (code.dropWhile (· != ':')).tail with
      label := some (trim (code.takeWhile (· != ':'))) }
  else ofStatement code

/-- The first colon divides code. -/
theorem takeWhile_colon_cons {before : List Char} (h : ':' ∉ before) (after : List Char) :
    (before ++ ':' :: after).takeWhile (· != ':') = before ∧
      ((before ++ ':' :: after).dropWhile (· != ':')).tail = after := by
  have hp : ∀ c ∈ before, (c != ':') = true := fun c hc => by
    simp only [bne_iff_ne, ne_eq]
    rintro rfl
    exact h hc
  rw [List.takeWhile_append_of_pos hp, List.dropWhile_append_of_pos hp]
  simp

theorem takeWhile_colon_append {s : List Char} (h : ':' ∈ s) (t : List Char) :
    (s ++ t).takeWhile (· != ':') = s.takeWhile (· != ':') ∧
      ((s ++ t).dropWhile (· != ':')).tail = (s.dropWhile (· != ':')).tail ++ t := by
  obtain ⟨before, after, rfl, hn⟩ := List.eq_append_cons_of_mem h
  obtain ⟨h1, h2⟩ := takeWhile_colon_cons hn after
  rw [List.append_assoc, List.cons_append, (takeWhile_colon_cons hn (after ++ t)).1,
    (takeWhile_colon_cons hn (after ++ t)).2, h1, h2]
  exact ⟨rfl, rfl⟩

theorem takeWhile_colon_blanks_append {blanks : List Char}
    (h : ∀ c ∈ blanks, isBlank c = true) (text : List Char) :
    (blanks ++ text).takeWhile (· != ':') = blanks ++ text.takeWhile (· != ':') ∧
      (blanks ++ text).dropWhile (· != ':') = text.dropWhile (· != ':') := by
  have hp : ∀ c ∈ blanks, (c != ':') = true := fun c hc => by
    simpa using ne_of_isBlank (h c hc) isBlank_colon
  exact ⟨List.takeWhile_append_of_pos hp, List.dropWhile_append_of_pos hp⟩

/-- Nothing behind the first colon matters to the label. -/
theorem hasLabel_append_iff {s t : List Char} (h : ':' ∈ s) : HasLabel (s ++ t) ↔ HasLabel s := by
  unfold HasLabel
  rw [(takeWhile_colon_append h t).1]
  simp [h]

/-- Blanks around code do not change its parts. -/
theorem ofCode_blanks {left right : List Char} (text : List Char)
    (hl : ∀ c ∈ left, isBlank c = true) (hr : ∀ c ∈ right, isBlank c = true) :
    ofCode (left ++ text ++ right) = ofCode text := by
  have hnl : ':' ∉ left := fun h => ne_of_isBlank (hl _ h) isBlank_colon rfl
  have hnr : ':' ∉ right := fun h => ne_of_isBlank (hr _ h) isBlank_colon rfl
  by_cases hc : ':' ∈ text
  · obtain ⟨ht, hd⟩ := takeWhile_colon_append hc right
    obtain ⟨ht', hd'⟩ := takeWhile_colon_blanks_append hl (text ++ right)
    have htrim : trim (left ++ text.takeWhile (· != ':')) = trim (text.takeWhile (· != ':')) :=
      trim_blanks_append hl _
    have hiff : HasLabel (left ++ text ++ right) ↔ HasLabel text := by
      rw [hasLabel_append_iff (List.mem_append_right left hc)]
      unfold HasLabel
      rw [(takeWhile_colon_blanks_append hl text).1, htrim]
      simp [hc]
    unfold ofCode
    simp only [hiff]
    split
    · rw [List.append_assoc, ht', hd', ht, hd, htrim, ofStatement_append_blanks hr]
    · rw [ofStatement_append_blanks hr, ofStatement_blanks_append hl]
  · have hn : ¬ HasLabel text := fun h => hc h.1
    have hn' : ¬ HasLabel (left ++ text ++ right) := fun h => by
      have := h.1
      simp [hnl, hnr, hc] at this
    unfold ofCode
    rw [if_neg hn, if_neg hn', ofStatement_append_blanks hr, ofStatement_blanks_append hl]

theorem ofCode_trim (code : List Char) : ofCode (trim code) = ofCode code := by
  obtain ⟨left, right, hl, hr, ht⟩ := exists_append_trim_append code
  conv => rhs; rw [ht, ofCode_blanks _ hl hr]

theorem trimLeft_trim (text : List Char) : trimLeft (trim text) = trim text := by
  obtain ⟨blanks, -, ht⟩ := exists_trimRight_append (trimLeft text)
  change trimLeft text = trim text ++ blanks at ht
  cases htrim : trim text with
  | nil => rfl
  | cons c rest =>
    have hhead := List.head?_dropWhile_not isBlank text
    rw [htrim] at ht
    rw [show text.dropWhile isBlank = c :: (rest ++ blanks) from ht] at hhead
    exact List.dropWhile_cons_of_neg (by simp [show isBlank c = false from hhead])

theorem parse_of_splitLabel {text rest : List Char} {label : Option (List Char)}
    (h : splitLabel (withoutComment text) = (label, rest)) (ht : trimLeft rest = rest) :
    parse text = { ofStatement rest with label := label } := by
  unfold parse ofStatement
  rw [h, ht]
  cases rest <;> rfl

/-- **The parts of a line** can be read off it without any trimming at its ends. -/
theorem parse_eq (text : List Char) : parse text = ofCode (text.takeWhile (· != ';')) := by
  rw [← ofCode_trim]
  unfold ofCode
  split_ifs with h
  · have hsplit : splitLabel (withoutComment text) = (_, _) := if_pos h
    rw [parse_of_splitLabel hsplit (trimLeft_trim _), ofStatement_trim]
    rfl
  · have hsplit : splitLabel (withoutComment text) = (_, _) := if_neg h
    rw [parse_of_splitLabel hsplit (trimLeft_trim _), ofStatement_without_label]
    rfl

/-! ### The first word of a statement -/

/-- The blanks before a statement, its first word, and what follows the word. -/
structure IsCut (lead word rest : List Char) : Prop where
  lead : ∀ c ∈ lead, isBlank c = true
  ne_nil : word ≠ []
  word : ∀ c ∈ word, isInk c = true
  rest : rest.takeWhile isInk = []

namespace IsCut

variable {lead word rest : List Char} (h : IsCut lead word rest)
include h

theorem dropWhile_rest : rest.dropWhile isInk = rest := by
  have := List.takeWhile_append_dropWhile (p := isInk) (l := rest)
  rwa [h.rest, List.nil_append] at this

theorem takeWhile_isBlank : (lead ++ word ++ rest).takeWhile isBlank = lead := by
  obtain ⟨c, others, rfl⟩ := List.exists_cons_of_ne_nil h.ne_nil
  have hc : isBlank c = false := by simpa [isInk] using h.word c (List.mem_cons_self ..)
  rw [List.append_assoc, List.takeWhile_append_of_pos h.lead, List.cons_append,
    List.takeWhile_cons_of_neg (by simp [hc]), List.append_nil]

theorem trimLeft_eq : trimLeft (lead ++ word ++ rest) = word ++ rest := by
  obtain ⟨c, others, rfl⟩ := List.exists_cons_of_ne_nil h.ne_nil
  have hc : isBlank c = false := by simpa [isInk] using h.word c (List.mem_cons_self ..)
  rw [List.append_assoc, trimLeft_blanks_append h.lead]
  exact List.dropWhile_cons_of_neg (by simp [hc])

theorem takeWhile_isInk : (word ++ rest).takeWhile isInk = word := by
  rw [List.takeWhile_append_of_pos h.word, h.rest, List.append_nil]

theorem dropWhile_isInk : (word ++ rest).dropWhile isInk = rest := by
  rw [List.dropWhile_append_of_pos h.word, h.dropWhile_rest]

theorem ofStatement_eq : ofStatement (lead ++ word ++ rest) = ⟨none, some word, squeeze rest⟩ := by
  have hne : trimLeft (lead ++ word ++ rest) ≠ [] := by
    rw [h.trimLeft_eq]
    exact List.append_ne_nil_of_left_ne_nil h.ne_nil rest
  rw [ofStatement_of_trimLeft_ne_nil hne, h.trimLeft_eq, h.takeWhile_isInk, h.dropWhile_isInk]

end IsCut

/-- What follows a word begins with a blank. -/
theorem IsCut.isBlank_head {lead word others : List Char} {c : Char}
    (h : IsCut lead word (c :: others)) : isBlank c = true := by
  rw [← isInk_eq_false_iff]
  by_contra hn
  have hrest := h.rest
  simp [hn] at hrest

/-- Every statement with a mnemonic can be cut behind it. -/
theorem exists_isCut {statement word : List Char}
    (h : (ofStatement statement).mnemonic = some word) :
    ∃ lead rest, statement = lead ++ word ++ rest ∧ IsCut lead word rest := by
  have hs : trimLeft statement ≠ [] := fun hs => by
    rw [ofStatement_of_trimLeft_eq_nil hs] at h
    cases h
  rw [ofStatement_of_trimLeft_ne_nil hs, Option.some.injEq] at h
  obtain ⟨lead, hl, ht⟩ := exists_trimLeft_append statement
  refine ⟨lead, (trimLeft statement).dropWhile isInk, ?_, hl, ?_, ?_, ?_⟩
  · rw [← h, List.append_assoc, List.takeWhile_append_dropWhile]
    exact ht
  · obtain ⟨c, others, hc⟩ := List.exists_cons_of_ne_nil hs
    have hhead := List.head?_dropWhile_not isBlank statement
    rw [show statement.dropWhile isBlank = c :: others from hc] at hhead
    rw [← h, hc, List.takeWhile_cons_of_pos (by simpa [isInk] using hhead)]
    simp
  · rw [← h]
    exact fun c hc => List.mem_takeWhile_imp hc
  · have hhead := List.head?_dropWhile_not isInk (trimLeft statement)
    cases hd : (trimLeft statement).dropWhile isInk with
    | nil => rfl
    | cons c others =>
      rw [hd] at hhead
      exact List.takeWhile_cons_of_neg (by simpa using hhead)

theorem exists_mnemonic_of_operand_ne_nil {statement : List Char}
    (h : (ofStatement statement).operand ≠ []) :
    ∃ word, (ofStatement statement).mnemonic = some word := by
  unfold ofStatement at h ⊢
  split
  · next hs => simp [hs] at h
  · exact ⟨_, rfl⟩

/-! ### Another operand in the place of the old one -/

/-- A statement with another operand, between the same blanks. -/
def replaceInStatement (statement operand : List Char) : List Char :=
  let body := trimLeft statement
  let rest := body.dropWhile isInk
  statement.takeWhile isBlank ++ body.takeWhile isInk ++
    (rest.takeWhile isBlank ++ operand ++ (rest.reverse.takeWhile isBlank).reverse)

theorem IsCut.replaceInStatement_eq {lead word rest : List Char} (h : IsCut lead word rest)
    (operand : List Char) : replaceInStatement (lead ++ word ++ rest) operand =
      lead ++ word ++ (rest.takeWhile isBlank ++ operand ++
        (rest.reverse.takeWhile isBlank).reverse) := by
  unfold replaceInStatement
  dsimp only
  rw [h.takeWhile_isBlank, h.trimLeft_eq, h.takeWhile_isInk, h.dropWhile_isInk]

/-- Behind a mnemonic, another operand makes another rest of the same kind. -/
theorem IsCut.replaceRest {lead word rest : List Char} (h : IsCut lead word rest)
    (hne : rest ≠ []) (tail : List Char) : IsCut lead word (rest.takeWhile isBlank ++ tail) where
  lead := h.lead
  ne_nil := h.ne_nil
  word := h.word
  rest := by
    obtain ⟨c, others, rfl⟩ := List.exists_cons_of_ne_nil hne
    have hb : isBlank c = true := h.isBlank_head
    rw [List.takeWhile_cons_of_pos hb]
    exact List.takeWhile_cons_of_neg (by simp [isInk, hb])

theorem ofStatement_replaceInStatement {statement operand : List Char}
    (h : (ofStatement statement).operand ≠ []) (ho : ∀ c ∈ operand, isBlank c = false) :
    ofStatement (replaceInStatement statement operand) =
      { ofStatement statement with operand := operand } := by
  obtain ⟨word, hm⟩ := exists_mnemonic_of_operand_ne_nil h
  obtain ⟨lead, rest, rfl, hcut⟩ := exists_isCut hm
  rw [hcut.ofStatement_eq] at h ⊢
  have hne : rest ≠ [] := by
    rintro rfl
    exact h rfl
  have hgap : squeeze (rest.takeWhile isBlank) = [] :=
    squeeze_blanks fun c hc => List.mem_takeWhile_imp hc
  have hend : squeeze (rest.reverse.takeWhile isBlank).reverse = [] :=
    squeeze_blanks fun c hc => List.mem_takeWhile_imp (List.mem_reverse.mp hc)
  have hcut' := hcut.replaceRest hne (operand ++ (rest.reverse.takeWhile isBlank).reverse)
  rw [hcut.replaceInStatement_eq, List.append_assoc (rest.takeWhile isBlank),
    hcut'.ofStatement_eq, squeeze_append, squeeze_append, hgap, hend, squeeze_eq_self ho,
    List.nil_append, List.append_nil]

theorem mem_replaceInStatement {statement operand : List Char} {c : Char}
    (h : c ∈ replaceInStatement statement operand) : c ∈ statement ∨ c ∈ operand := by
  have hbody : ∀ c ∈ trimLeft statement, c ∈ statement := fun _ h =>
    (List.dropWhile_suffix isBlank).subset h
  have hrest : ∀ c ∈ (trimLeft statement).dropWhile isInk, c ∈ statement := fun c h =>
    hbody c ((List.dropWhile_suffix isInk).subset h)
  unfold replaceInStatement at h
  simp only [List.mem_append, List.mem_reverse] at h
  rcases h with (h | h) | (h | h) | h
  · exact Or.inl ((List.takeWhile_prefix isBlank).subset h)
  · exact Or.inl (hbody c ((List.takeWhile_prefix isInk).subset h))
  · exact Or.inl (hrest c ((List.takeWhile_prefix isBlank).subset h))
  · exact Or.inr h
  · exact Or.inl (hrest c (List.mem_reverse.mp ((List.takeWhile_prefix isBlank).subset h)))

/-- Code with another operand. -/
def replaceInCode (code operand : List Char) : List Char :=
  if HasLabel code then
    code.takeWhile (· != ':') ++ ':' :: replaceInStatement (code.dropWhile (· != ':')).tail operand
  else replaceInStatement code operand

/-- **A line with another operand** in the place of its own. All the rest of its text stays. -/
def replaceOperand (text operand : List Char) : List Char :=
  replaceInCode (text.takeWhile (· != ';')) operand ++ text.dropWhile (· != ';')

/-- Another operand neither makes a label nor takes one away. -/
theorem hasLabel_replaceInStatement {code operand : List Char} (hl : ¬ HasLabel code)
    (h : (ofStatement code).operand ≠ []) (ho : ∀ c ∈ operand, c ≠ ':') :
    ¬ HasLabel (replaceInStatement code operand) := by
  obtain ⟨word, hm⟩ := exists_mnemonic_of_operand_ne_nil h
  obtain ⟨lead, rest, rfl, hcut⟩ := exists_isCut hm
  rw [hcut.replaceInStatement_eq]
  intro hl'
  have hblank : ∀ {blanks : List Char}, (∀ c ∈ blanks, isBlank c = true) → ':' ∉ blanks :=
    fun hb hc => ne_of_isBlank (hb _ hc) isBlank_colon rfl
  have hgap : ':' ∉ rest.takeWhile isBlank := hblank fun c hc => List.mem_takeWhile_imp hc
  have hend : ':' ∉ rest.reverse.takeWhile isBlank := hblank fun c hc => List.mem_takeWhile_imp hc
  have hop : ':' ∉ operand := fun hc => ho _ hc rfl
  have hword : ':' ∈ lead ++ word := by
    have := hl'.1
    simpa [hgap, hend, hop] using this
  rw [hasLabel_append_iff hword] at hl hl'
  exact hl hl'

theorem ofCode_replaceInCode {code operand : List Char} (h : (ofCode code).operand ≠ [])
    (ho : ∀ c ∈ operand, IsPlain c) :
    ofCode (replaceInCode code operand) = { ofCode code with operand := operand } := by
  have hb : ∀ c ∈ operand, isBlank c = false := fun c hc => (ho c hc).1
  by_cases hl : HasLabel code
  · obtain ⟨before, after, rfl, hn⟩ := List.eq_append_cons_of_mem hl.1
    obtain ⟨h1, h2⟩ := takeWhile_colon_cons hn after
    have hcode : replaceInCode (before ++ ':' :: after) operand =
        before ++ ':' :: replaceInStatement after operand := by
      unfold replaceInCode
      rw [if_pos hl, h1, h2]
    obtain ⟨h1', h2'⟩ := takeWhile_colon_cons hn (replaceInStatement after operand)
    have hl' : HasLabel (before ++ ':' :: replaceInStatement after operand) := by
      refine ⟨by simp, ?_⟩
      rw [h1', ← h1]
      exact hl.2
    have hof : ofCode (before ++ ':' :: after) =
        { ofStatement after with label := some (trim before) } := by
      unfold ofCode
      rw [if_pos hl, h1, h2]
    rw [hof] at h ⊢
    unfold ofCode
    rw [hcode, if_pos hl', h1', h2', ofStatement_replaceInStatement h hb]
  · unfold ofCode at h ⊢
    unfold replaceInCode
    rw [if_neg hl] at h
    rw [if_neg hl, if_neg (hasLabel_replaceInStatement hl h fun c hc => (ho c hc).2.1), if_neg hl,
      ofStatement_replaceInStatement h hb]

theorem mem_replaceInCode {code operand : List Char} {c : Char}
    (h : c ∈ replaceInCode code operand) : c ∈ code ∨ c ∈ operand := by
  unfold replaceInCode at h
  split at h
  · next hl =>
    rcases List.mem_append.mp h with h | h
    · exact Or.inl ((List.takeWhile_prefix _).subset h)
    · rcases List.mem_cons.mp h with rfl | h
      · exact Or.inl hl.1
      · rcases mem_replaceInStatement h with h | h
        · exact Or.inl ((List.dropWhile_suffix _).subset (List.mem_of_mem_tail h))
        · exact Or.inr h
  · exact mem_replaceInStatement h

/-- **The parts of a line with another operand** are those of the line but for the operand. -/
theorem parse_replaceOperand {text operand : List Char} (h : (parse text).operand ≠ [])
    (ho : ∀ c ∈ operand, IsPlain c) :
    parse (replaceOperand text operand) = { parse text with operand := operand } := by
  have hcode : ∀ c ∈ replaceInCode (text.takeWhile (· != ';')) operand, (c != ';') = true :=
    fun c hc => by
      rcases mem_replaceInCode hc with hc | hc
      · exact List.mem_takeWhile_imp (p := (· != ';')) hc
      · simpa using (ho c hc).2.2
  have hcomment : (text.dropWhile (· != ';')).takeWhile (· != ';') = [] := by
    have hhead := List.head?_dropWhile_not (· != ';') text
    cases hd : text.dropWhile (· != ';') with
    | nil => rfl
    | cons c others =>
      rw [hd] at hhead
      exact List.takeWhile_cons_of_neg (by simpa using hhead)
  rw [parse_eq] at h ⊢
  unfold replaceOperand
  rw [List.takeWhile_append_of_pos hcode, hcomment, List.append_nil, parse_eq,
    ofCode_replaceInCode h ho]

theorem mem_replaceOperand {text operand : List Char} {c : Char}
    (h : c ∈ replaceOperand text operand) : c ∈ text ∨ c ∈ operand := by
  rcases List.mem_append.mp h with h | h
  · rcases mem_replaceInCode h with h | h
    · exact Or.inl ((List.takeWhile_prefix _).subset h)
    · exact Or.inr h
  · exact Or.inl ((List.dropWhile_suffix _).subset h)

/-- A line that is only a statement. -/
theorem parse_of_isCut {word rest : List Char} (h : IsCut [] word rest)
    (hp : ∀ c ∈ word ++ rest, c ≠ ':' ∧ c ≠ ';') :
    parse (word ++ rest) = ⟨none, some word, squeeze rest⟩ := by
  have hcode : (word ++ rest).takeWhile (· != ';') = word ++ rest :=
    List.takeWhile_eq_self_iff.mpr fun c hc => by simpa using (hp c hc).2
  have hl : ¬ HasLabel (word ++ rest) := fun hl => (hp _ hl.1).1 rfl
  rw [parse_eq, hcode]
  unfold ofCode
  rw [if_neg hl]
  exact h.ofStatement_eq

/-- A carriage return that a line has lost makes no difference to its parts. -/
theorem parse_withoutReturn (text : List Char) : parse (withoutReturn text) = parse text := by
  rcases withoutReturn_cases text with h | h
  · rw [h]
  · have hr : ∀ c ∈ ['\r'], isBlank c = true := List.forall_mem_singleton.mpr rfl
    conv => rhs; rw [h]
    rw [parse_eq, parse_eq, List.takeWhile_append]
    split
    · next hl =>
      have hcode : (withoutReturn text).takeWhile (· != ';') = withoutReturn text :=
        (List.takeWhile_prefix _).eq_of_length hl
      rw [hcode]
      exact (ofCode_blanks (withoutReturn text) (List.forall_mem_nil _) hr).symm
    · rfl

end Line

end Nmos6502
