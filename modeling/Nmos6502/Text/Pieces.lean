/-!
# Pieces of a text

A text cut at a separator, a text cut into lines, and what is left of a text once a given beginning
or ending is taken away. Joining the pieces gives the text back (`intercalate_pieces`), and taking
away what was put in front or behind leaves the rest (`after?_append`, `before?_append`).
-/

namespace Nmos6502

/-- The pieces of a text between the occurrences of a separator; always at least one. -/
def pieces (separator : Char) : List Char → List (List Char)
  | [] => [[]]
  | c :: rest =>
    if c = separator then [] :: pieces separator rest
    else
      match pieces separator rest with
      | [] => [[c]]
      | piece :: others => (c :: piece) :: others

/-- What follows a given beginning, if the text begins so. -/
def after? : (beginning text : List Char) → Option (List Char)
  | [], text => some text
  | _ :: _, [] => none
  | b :: beginning, c :: text => if b = c then after? beginning text else none

/-- What precedes a given ending, if the text ends so. -/
def before? (ending text : List Char) : Option (List Char) :=
  (after? ending.reverse text.reverse).map List.reverse

/-- A line that ended in a line feed, less the carriage return just before it. -/
def withoutReturn (line : List Char) : List Char :=
  (before? ['\r'] line).getD line

/-- The lines that a text's pieces make: each piece but the last ended in a line feed, and the last
is a line only if it is not empty. -/
def linesOfPieces : List (List Char) → List (List Char)
  | [] => []
  | [[]] => []
  | [last] => [last]
  | line :: rest => withoutReturn line :: linesOfPieces rest

/-- The lines of a text, which end in a line feed or a carriage return and a line feed. -/
def lines (text : List Char) : List (List Char) :=
  linesOfPieces (pieces '\n' text)

theorem pieces_ne_nil (separator : Char) (text : List Char) : pieces separator text ≠ [] := by
  cases text with
  | nil => simp [pieces]
  | cons c rest =>
    rw [pieces]
    split
    · simp
    · split <;> simp

/-- The separator put between the pieces gives the text back. -/
theorem intercalate_pieces (separator : Char) (text : List Char) :
    [separator].intercalate (pieces separator text) = text := by
  induction text with
  | nil => rfl
  | cons c rest ih =>
    rw [pieces]
    split
    · next h =>
      subst h
      cases hp : pieces c rest with
      | nil => exact absurd hp (pieces_ne_nil c rest)
      | cons piece others => rw [hp] at ih; simpa [List.intercalate, List.intersperse] using ih
    · cases hp : pieces separator rest with
      | nil => exact absurd hp (pieces_ne_nil separator rest)
      | cons piece others =>
        rw [hp] at ih
        cases others <;> simpa [List.intercalate, List.intersperse] using ih

@[simp] theorem after?_append (beginning text : List Char) :
    after? beginning (beginning ++ text) = some text := by
  induction beginning with
  | nil => rfl
  | cons b beginning ih => simpa [after?] using ih

@[simp] theorem before?_append (text ending : List Char) :
    before? ending (text ++ ending) = some text := by
  simp [before?]

theorem after?_eq_some_iff {beginning text rest : List Char} :
    after? beginning text = some rest ↔ text = beginning ++ rest := by
  induction beginning generalizing text with
  | nil => simp [after?, eq_comm]
  | cons b beginning ih =>
    cases text with
    | nil => simp [after?]
    | cons c text =>
      rw [after?]
      split
      · next h => subst h; simpa using ih
      · next h => simp [Ne.symm h]

end Nmos6502
