/-!
# Blank characters

The characters that count as white space: those with the Unicode property `White_Space`. Trimming
removes them at both ends of a text, squeezing everywhere.
-/

namespace Nmos6502

/-- Whether a character has the Unicode property `White_Space`. -/
def isBlank (c : Char) : Bool :=
  let n := c.toNat
  (9 ≤ n && n ≤ 13) || n == 0x20 || n == 0x85 || n == 0xA0 || n == 0x1680 ||
    (0x2000 ≤ n && n ≤ 0x200A) || n == 0x2028 || n == 0x2029 || n == 0x202F || n == 0x205F ||
    n == 0x3000

/-- A text without the blanks at its beginning. -/
def trimLeft (text : List Char) : List Char :=
  text.dropWhile isBlank

/-- A text without the blanks at its end. -/
def trimRight (text : List Char) : List Char :=
  (trimLeft text.reverse).reverse

/-- A text without the blanks at both ends. -/
def trim (text : List Char) : List Char :=
  trimRight (trimLeft text)

/-- A text without any blank. -/
def squeeze (text : List Char) : List Char :=
  text.filter fun c => !isBlank c

/-- Every character that core counts as white space is blank. -/
theorem isBlank_of_isWhitespace {c : Char} (h : c.isWhitespace = true) : isBlank c = true := by
  simp only [Char.isWhitespace, Bool.or_eq_true, decide_eq_true_eq] at h
  rcases h with ((rfl | rfl) | rfl) | rfl <;> rfl

theorem not_isBlank_of_mem_squeeze {text : List Char} {c : Char} (h : c ∈ squeeze text) :
    isBlank c = false := by
  simpa using (List.mem_filter.mp h).2

end Nmos6502
