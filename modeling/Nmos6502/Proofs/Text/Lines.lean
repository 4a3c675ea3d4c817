import Mathlib.Data.List.TakeWhile
import Nmos6502.Text.Blank
import Nmos6502.Text.Pieces

/-!
# Lines of a text

Cutting a text at a separator is `List.splitOn` (`pieces_eq_splitOn`), so what is put together from
pieces without the separator is cut into these pieces again (`pieces_intercalate`). For lines a
little more is needed: none of them may be empty or hold a carriage return (`lines_intercalate`).

In the middle of the file stand the facts about blanks that cutting a line into words rests on:
a text is its trimmed form with blanks around it, and blanks at the end change neither the first
word nor what is left of the rest without blanks.
-/

namespace Nmos6502

/-- What holds of all characters of a text, tested one after the other. -/
theorem forall_mem_of_all {p : Char → Prop} [DecidablePred p] {text : List Char}
    (h : (text.all fun c => decide (p c)) = true) : ∀ c ∈ text, p c := by
  intro c hc
  exact of_decide_eq_true (List.all_eq_true.mp h c hc)

/-! ### Pieces -/

theorem pieces_eq_splitOn (separator : Char) (text : List Char) :
    pieces separator text = text.splitOn separator := by
  induction text with
  | nil => rw [pieces, List.splitOn_nil]
  | cons c rest ih =>
    rw [pieces, List.splitOn_cons_eq_if_modifyHead, ih]
    by_cases h : c = separator
    · simp [h]
    · obtain ⟨piece, others, hp⟩ := List.exists_cons_of_ne_nil (List.splitOn_ne_nil separator rest)
      simp [h, hp]

/-- Pieces without the separator are found again in what they make. -/
theorem pieces_intercalate {separator : Char} {ps : List (List Char)} (hne : ps ≠ [])
    (h : ∀ p ∈ ps, separator ∉ p) : pieces separator ([separator].intercalate ps) = ps := by
  rw [pieces_eq_splitOn]
  exact List.splitOn_intercalate separator h hne

theorem pieces_of_not_mem {separator : Char} {text : List Char} (h : separator ∉ text) :
    pieces separator text = [text] := by
  rw [pieces_eq_splitOn]
  exact List.splitOn_eq_singleton h

/-- The pieces of two texts with the separator between them. -/
theorem pieces_append_cons (separator : Char) (s t : List Char) :
    pieces separator (s ++ separator :: t) = pieces separator s ++ pieces separator t := by
  rw [pieces_eq_splitOn, pieces_eq_splitOn, pieces_eq_splitOn]
  exact List.splitOn_append_cons_self s t

theorem length_pieces (separator : Char) (text : List Char) :
    (pieces separator text).length = text.count separator + 1 := by
  induction text with
  | nil => rfl
  | cons c rest ih =>
    rw [pieces, List.count_cons]
    split
    · next h => simp [h, ih]
    · next h =>
      obtain ⟨piece, others, hp⟩ := List.exists_cons_of_ne_nil (pieces_ne_nil separator rest)
      rw [hp] at ih ⊢
      simpa [h] using ih

theorem not_mem_of_mem_pieces {separator : Char} {text p : List Char}
    (h : p ∈ pieces separator text) : separator ∉ p := by
  induction text generalizing p with
  | nil =>
    rw [pieces, List.mem_singleton] at h
    simp [h]
  | cons c rest ih =>
    rw [pieces] at h
    split at h
    · rcases List.mem_cons.mp h with rfl | h
      · simp
      · exact ih h
    · next hc =>
      obtain ⟨piece, others, hp⟩ := List.exists_cons_of_ne_nil (pieces_ne_nil separator rest)
      rw [hp] at h ih
      rcases List.mem_cons.mp h with rfl | h
      · have := ih (List.mem_cons_self ..)
        simp [this, Ne.symm hc]
      · exact ih (List.mem_cons_of_mem _ h)

/-! ### Lines -/

theorem before?_eq_some_iff {ending text rest : List Char} :
    before? ending text = some rest ↔ text = rest ++ ending := by
  unfold before?
  rw [Option.map_eq_some_iff]
  constructor
  · rintro ⟨r, hr, rfl⟩
    simpa using congrArg List.reverse (after?_eq_some_iff.mp hr)
  · rintro rfl
    exact ⟨rest.reverse, by simp, List.reverse_reverse rest⟩

/-- A line is as it was, or it has lost a carriage return at its end. -/
theorem withoutReturn_cases (line : List Char) :
    withoutReturn line = line ∨ line = withoutReturn line ++ ['\r'] := by
  unfold withoutReturn
  cases h : before? ['\r'] line with
  | none => exact Or.inl rfl
  | some rest => exact Or.inr (before?_eq_some_iff.mp h)

theorem withoutReturn_of_not_mem {line : List Char} (h : '\r' ∉ line) :
    withoutReturn line = line := by
  rcases withoutReturn_cases line with hw | hw
  · exact hw
  · rw [hw] at h
    simp at h

theorem linesOfPieces_cons {line : List Char} {rest : List (List Char)} (h : rest ≠ []) :
    linesOfPieces (line :: rest) = withoutReturn line :: linesOfPieces rest := by
  obtain ⟨next, others, rfl⟩ := List.exists_cons_of_ne_nil h
  cases line <;> rfl

theorem linesOfPieces_append (ps : List (List Char)) {rest : List (List Char)} (h : rest ≠ []) :
    linesOfPieces (ps ++ rest) = ps.map withoutReturn ++ linesOfPieces rest := by
  induction ps with
  | nil => rfl
  | cons p ps ih =>
    rw [List.cons_append, linesOfPieces_cons (List.append_ne_nil_of_right_ne_nil ps h), ih]
    rfl

theorem linesOfPieces_singleton {last : List Char} (h : last ≠ []) :
    linesOfPieces [last] = [last] := by
  obtain ⟨c, rest, rfl⟩ := List.exists_cons_of_ne_nil h
  rfl

theorem linesOfPieces_eq_self {ps : List (List Char)} (h : ∀ p ∈ ps, p ≠ [] ∧ '\r' ∉ p) :
    linesOfPieces ps = ps := by
  induction ps with
  | nil => rfl
  | cons p rest ih =>
    obtain ⟨hp, hrest⟩ := List.forall_mem_cons.mp h
    by_cases hne : rest = []
    · subst hne
      exact linesOfPieces_singleton hp.1
    · rw [linesOfPieces_cons hne, ih hrest, withoutReturn_of_not_mem hp.2]

/-- **Lines put one below the other** are the lines of the text that they make. -/
theorem lines_intercalate {texts : List (List Char)}
    (h : ∀ t ∈ texts, t ≠ [] ∧ '\n' ∉ t ∧ '\r' ∉ t) :
    lines (['\n'].intercalate texts) = texts := by
  by_cases hne : texts = []
  · subst hne
    rfl
  · unfold lines
    rw [pieces_intercalate hne fun t ht => (h t ht).2.1]
    exact linesOfPieces_eq_self fun t ht => ⟨(h t ht).1, (h t ht).2.2⟩

section Behind

variable {α : Type} {f : List Char → α}

/-- What does not depend on a lost carriage return is the same for the pieces of a text and for its
lines; the last piece may be no line, and is empty then. -/
theorem map_of_linesOfPieces (hf : ∀ line, f (withoutReturn line) = f line)
    {ps : List (List Char)} (h : ps ≠ []) :
    ps.map f = (linesOfPieces ps).map f ∨ ps.map f = (linesOfPieces ps).map f ++ [f []] := by
  induction ps with
  | nil => exact absurd rfl h
  | cons p rest ih =>
    by_cases hrest : rest = []
    · subst hrest
      by_cases hp : p = []
      · subst hp
        exact Or.inr rfl
      · rw [linesOfPieces_singleton hp]
        exact Or.inl rfl
    · rw [linesOfPieces_cons hrest, List.map_cons, List.map_cons, hf]
      exact (ih hrest).imp (congrArg _) (congrArg _)

/-- A text behind another and a line feed: the pieces of the first are lines now. -/
theorem map_lines_append (hf : ∀ line, f (withoutReturn line) = f line) (first second : List Char) :
    (lines (first ++ '\n' :: second)).map f =
      (pieces '\n' first).map f ++ (lines second).map f := by
  unfold lines
  rw [pieces_append_cons, linesOfPieces_append _ (pieces_ne_nil '\n' second), List.map_append,
    List.map_map]
  congr 1
  exact List.map_congr_left fun p _ => hf p

/-- **The lines of a text** come first when a line feed and another text are put behind it. -/
theorem map_lines_prefix (hf : ∀ line, f (withoutReturn line) = f line) (first second : List Char) :
    (lines first).map f <+: (lines (first ++ '\n' :: second)).map f := by
  rw [map_lines_append hf]
  rcases map_of_linesOfPieces hf (pieces_ne_nil '\n' first) with h | h
  · rw [h]
    exact List.prefix_append _ _
  · rw [h, List.append_assoc]
    exact List.prefix_append _ _

end Behind

/-! ### Blanks -/

/-- Whether a character is part of a word. -/
def isInk (c : Char) : Bool :=
  !isBlank c

theorem isInk_eq_false_iff {c : Char} : isInk c = false ↔ isBlank c = true := by
  simp [isInk]

/-- A text is what is left without the blanks at its end, and these blanks. -/
theorem exists_trimRight_append (text : List Char) :
    ∃ blanks, (∀ c ∈ blanks, isBlank c = true) ∧ text = trimRight text ++ blanks := by
  refine ⟨(text.reverse.takeWhile isBlank).reverse, fun c hc => ?_, ?_⟩
  · exact List.mem_takeWhile_imp (List.mem_reverse.mp hc)
  · unfold trimRight trimLeft
    rw [← List.reverse_append, List.takeWhile_append_dropWhile, List.reverse_reverse]

theorem exists_trimLeft_append (text : List Char) :
    ∃ blanks, (∀ c ∈ blanks, isBlank c = true) ∧ text = blanks ++ trimLeft text :=
  ⟨text.takeWhile isBlank, fun _ hc => List.mem_takeWhile_imp hc,
    List.takeWhile_append_dropWhile.symm⟩

theorem trimLeft_blanks_append {blanks : List Char} (h : ∀ c ∈ blanks, isBlank c = true)
    (text : List Char) : trimLeft (blanks ++ text) = trimLeft text :=
  List.dropWhile_append_of_pos h

theorem squeeze_append (s t : List Char) : squeeze (s ++ t) = squeeze s ++ squeeze t :=
  List.filter_append ..

theorem squeeze_blanks {blanks : List Char} (h : ∀ c ∈ blanks, isBlank c = true) :
    squeeze blanks = [] := by
  unfold squeeze
  rw [List.filter_eq_nil_iff]
  intro c hc
  simp [h c hc]

theorem squeeze_eq_self {text : List Char} (h : ∀ c ∈ text, isBlank c = false) :
    squeeze text = text := by
  unfold squeeze
  rw [List.filter_eq_self]
  intro c hc
  simp [h c hc]

theorem takeWhile_isInk_blanks {blanks : List Char} (h : ∀ c ∈ blanks, isBlank c = true) :
    blanks.takeWhile isInk = [] := by
  cases blanks with
  | nil => rfl
  | cons c rest => simp [isInk, h c (List.mem_cons_self ..)]

theorem dropWhile_isInk_blanks {blanks : List Char} (h : ∀ c ∈ blanks, isBlank c = true) :
    blanks.dropWhile isInk = blanks := by
  cases blanks with
  | nil => rfl
  | cons c rest => simp [isInk, h c (List.mem_cons_self ..)]

/-- Blanks at the end leave the first word. -/
theorem takeWhile_isInk_append_blanks {blanks : List Char} (text : List Char)
    (h : ∀ c ∈ blanks, isBlank c = true) :
    (text ++ blanks).takeWhile isInk = text.takeWhile isInk := by
  rw [List.takeWhile_append, takeWhile_isInk_blanks h, List.append_nil]
  split
  · next hl => exact (List.takeWhile_prefix isInk).eq_of_length hl |>.symm
  · rfl

/-- Blanks at the end leave what follows the first word, once it is squeezed. -/
theorem squeeze_dropWhile_isInk_append_blanks {blanks : List Char} (text : List Char)
    (h : ∀ c ∈ blanks, isBlank c = true) :
    squeeze ((text ++ blanks).dropWhile isInk) = squeeze (text.dropWhile isInk) := by
  rw [List.dropWhile_append, dropWhile_isInk_blanks h]
  split
  · next he => rw [squeeze_blanks h, List.isEmpty_iff.mp he]; rfl
  · rw [squeeze_append, squeeze_blanks h, List.append_nil]

end Nmos6502
