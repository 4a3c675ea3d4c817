import Mathlib.Data.List.TakeDrop
import Mathlib.Data.List.TakeWhile
import Nmos6502.Json.Grammar

/-!
# Texts and their tokens

A text is cut into some tokens if that is so whatever follows it (`Token.Cuts`), and a word is cut
off where no word goes on (`Token.CutsWord`); both are put together from their parts. White space
is cut into nothing, a mark into its token, a quoted text without escapes into a string
(`Token.cuts_quoted`), and the digits of a natural number into that number
(`Token.cutsWord_digits`).
-/

namespace Nmos6502

/-! ### Natural numbers -/

namespace Decimal

theorem digits_ne_nil (n : Nat) : digits n ≠ [] := by
  rw [digits]
  split
  · exact List.cons_ne_nil _ _
  · exact List.append_ne_nil_of_right_ne_nil _ (List.cons_ne_nil _ _)

/-- A number is written without leading zeros. -/
theorem eq_nil_of_digits_eq_zero_cons {n : Nat} {rest : List Char} (h : digits n = '0' :: rest) :
    rest = [] := by
  by_cases hn : n < 10
  · rw [digits, if_pos hn] at h
    exact (List.cons.inj h).2.symm
  · -- The leading digit is that of the tenth part, which is not zero.
    have hvalue := value_digits (n / 10)
    rw [digits, if_neg hn] at h
    cases hd : digits (n / 10) with
    | nil => exact absurd hd (digits_ne_nil _)
    | cons c cs =>
      rw [hd, List.cons_append] at h
      obtain ⟨hc, -⟩ := List.cons.inj h
      rw [hc] at hd
      rw [hd, eq_nil_of_digits_eq_zero_cons hd] at hvalue
      change 0 = n / 10 at hvalue
      omega
termination_by n

theorem le_append (n : Nat) (c : Char) : n ≤ append n c := by
  unfold append
  omega

theorem le_foldl_append (n : Nat) (cs : List Char) : n ≤ cs.foldl append n := by
  induction cs generalizing n with
  | nil => exact Nat.le_refl n
  | cons c cs ih => exact Nat.le_trans (le_append n c) (ih _)

end Decimal

namespace Number

theorem natural?_ofNat (n : Nat) : (ofNat n).natural? = some n := by
  unfold natural? ofNat
  rw [if_pos ⟨rfl, rfl, rfl⟩, Decimal.value_digits]

theorem significand_of_le {n : Nat} {cs : List Char}
    (h : cs.foldl Decimal.append n ≤ maxSignificand) :
    significand n cs = (cs.foldl Decimal.append n, []) := by
  induction cs generalizing n with
  | nil => rfl
  | cons c cs ih =>
    rw [significand, if_pos (Nat.le_trans (Decimal.le_foldl_append _ cs) h), ih h]
    rfl

/-- A natural number that a double holds exactly is finite. -/
theorem isFinite_ofNat {n : Nat} (h : n < Nat.pow 2 53) : (ofNat n).isFinite = true := by
  have hsignificand : significand 0 (Decimal.digits n) = (n, []) := by
    have hvalue := Decimal.value_digits n
    unfold Decimal.value at hvalue
    rw [significand_of_le, hvalue]
    rw [hvalue]
    exact Nat.le_trans (Nat.le_of_lt h) (by decide)
  have hdouble : toDouble n * toDouble (Nat.pow 10 0) = n := by
    have hn : toDouble n = n := if_pos h
    rw [hn]
    exact Nat.mul_one n
  have hlt : n < overflow := Nat.lt_of_lt_of_le h (by decide +kernel)
  unfold isFinite ofNat
  rw [hsignificand]
  change (n == 0 || false ||
    (true && decide (toDouble n * toDouble (Nat.pow 10 0) < overflow))) = true
  rw [hdouble, decide_eq_true hlt]
  cases n == 0 <;> rfl

/-- **The digits of a natural number** stand for it. -/
theorem ofText?_digits (n : Nat) : ofText? (Decimal.digits n) = some (ofNat n) := by
  have hdigits := Decimal.isDigit_of_mem_digits n
  have hread : digits? (Decimal.digits n) = some (Decimal.digits n, []) := by
    unfold digits?
    rw [List.span_eq_takeWhile_dropWhile, List.takeWhile_eq_self_iff.mpr hdigits,
      List.dropWhile_eq_nil_iff.mpr hdigits]
    cases hd : Decimal.digits n with
    | nil => exact absurd hd (Decimal.digits_ne_nil n)
    | cons c cs => rfl
  have hwhole : whole? (Decimal.digits n) = some (Decimal.digits n, []) := by
    unfold whole?
    rw [hread]
    split
    · next hzero =>
      have hdigits := (Prod.ext_iff.mp (Option.some.inj hzero)).1
      cases Decimal.eq_nil_of_digits_eq_zero_cons hdigits
    · rfl
  have hunsigned : unsigned? false (Decimal.digits n) = some (ofNat n) := by
    unfold unsigned?
    rw [hwhole]
    rfl
  unfold ofText?
  split
  · next hsign =>
    have hminus := hdigits '-' (by rw [hsign]; exact List.mem_cons_self)
    exact absurd hminus (by decide)
  · exact hunsigned

end Number

namespace Token

/-! ### Cutting -/

/-- A text is cut into some tokens, whatever follows it. -/
def Cuts (text : List Char) (tokens : List Token) : Prop :=
  ∀ rest, tokensFrom? .between (text ++ rest) = (tokensFrom? .between rest).map (tokens ++ ·)

/-- No word goes on at the beginning of a text. -/
def EndsWord (text : List Char) : Prop :=
  ∀ c ∈ text.head?, isWordPart c = false

/-- A text is cut into some tokens if no word goes on behind it. -/
def CutsWord (text : List Char) (tokens : List Token) : Prop :=
  ∀ rest, EndsWord rest →
    tokensFrom? .between (text ++ rest) = (tokensFrom? .between rest).map (tokens ++ ·)

section Composition

variable {text text' : List Char} {tokens tokens' : List Token}

/-- A blank goes on no word. -/
theorem isWordPart_of_isSpace {c : Char} (h : isSpace c = true) : isWordPart c = false := by
  simp only [isSpace, Bool.or_eq_true, beq_iff_eq, or_assoc] at h
  rcases h with rfl | rfl | rfl | rfl <;> rfl

theorem endsWord_cons {c : Char} (h : isWordPart c = false) (rest : List Char) :
    EndsWord (c :: rest) :=
  fun _ hc => Option.some.inj hc ▸ h

theorem Cuts.cutsWord (h : Cuts text tokens) : CutsWord text tokens :=
  fun rest _ => h rest

theorem Cuts.nil : Cuts [] [] :=
  fun _ => Option.map_id'.symm

theorem Cuts.append (h : Cuts text tokens) (h' : Cuts text' tokens') :
    Cuts (text ++ text') (tokens ++ tokens') := by
  intro rest
  rw [List.append_assoc, h, h' rest, Option.map_map]
  simp only [Function.comp_def, List.append_assoc]

theorem Cuts.append_cutsWord (h : Cuts text tokens) (h' : CutsWord text' tokens') :
    CutsWord (text ++ text') (tokens ++ tokens') := by
  intro rest hrest
  rw [List.append_assoc, h, h' rest hrest, Option.map_map]
  simp only [Function.comp_def, List.append_assoc]

/-- A text that begins with a character of no word ends the word before it. -/
theorem CutsWord.append (h : CutsWord text tokens) (h' : Cuts text' tokens')
    (hends : ∀ rest, EndsWord (text' ++ rest)) : Cuts (text ++ text') (tokens ++ tokens') := by
  intro rest
  rw [List.append_assoc, h _ (hends rest), h' rest, Option.map_map]
  simp only [Function.comp_def, List.append_assoc]

end Composition

/-! ### Tokens -/

theorem cuts_mark {c : Char} {token : Token} (h : start? c = some ([token], .between)) :
    Cuts [c] [token] := by
  intro rest
  rw [List.singleton_append, tokensFrom?, advance?, h]

theorem cuts_spaces {text : List Char} (h : text.all isSpace = true) : Cuts text [] := by
  induction text with
  | nil => exact Cuts.nil
  | cons c text ih =>
    obtain ⟨hspace, hspaces⟩ := Bool.and_eq_true_iff.mp (List.all_cons ▸ h)
    have hc : start? c = some ([], .between) := if_pos hspace
    have hfirst : Cuts [c] [] := by
      intro rest
      rw [List.singleton_append, tokensFrom?, advance?, hc]
    exact hfirst.append (ih hspaces)

/-! ### Strings -/

theorem advance?_of_isPlain {c : Char} (h : isPlain c = true) (read : List Part) :
    advance? (.string read) c = some ([], .string (.char c :: read)) := by
  simp only [isPlain, Bool.and_eq_true, bne_iff_ne, decide_eq_true_eq] at h
  obtain ⟨⟨hquote, hescape⟩, hprintable⟩ := h
  rw [advance?, if_neg hquote, if_neg hescape, if_neg (Nat.not_lt.mpr hprintable)]

theorem textOfParts_chars (text : List Char) : textOfParts (text.map .char) = some text := by
  induction text with
  | nil => rfl
  | cons c text ih => rw [List.map_cons, textOfParts, ih, Option.map_some]

theorem tokensFrom?_string {text : List Char} (h : text.all isPlain = true) (read : List Part)
    (rest : List Char) : tokensFrom? (.string read) (text ++ rest) =
      tokensFrom? (.string ((text.map .char).reverse ++ read)) rest := by
  induction text generalizing read with
  | nil => rfl
  | cons c text ih =>
    obtain ⟨hplain, hothers⟩ := Bool.and_eq_true_iff.mp (List.all_cons ▸ h)
    rw [List.cons_append, tokensFrom?, advance?_of_isPlain hplain, List.map_cons,
      List.reverse_cons, List.append_assoc]
    dsimp only
    rw [ih hothers]
    exact Option.map_id'

/-- **A quoted text** is a string. -/
theorem cuts_quoted {text : List Char} (h : text.all isPlain = true) :
    Cuts ('"' :: text ++ ['"']) [.string (some text)] := by
  intro rest
  have hopen : start? '"' = some ([], .string []) := rfl
  have hclose : advance? (.string (text.map .char).reverse) '"' =
      some ([.string (some text)], .between) := by
    rw [advance?, if_pos rfl, List.reverse_reverse, textOfParts_chars]
  rw [List.append_assoc, List.cons_append, List.singleton_append, tokensFrom?, advance?, hopen]
  dsimp only
  rw [tokensFrom?_string h, List.append_nil, tokensFrom?, hclose]
  exact Option.map_id'

/-! ### Words -/

theorem tokensFrom?_word {word : List Char} (h : ∀ c ∈ word, isWordPart c = true)
    (read rest : List Char) :
    tokensFrom? (.word read) (word ++ rest) = tokensFrom? (.word (word.reverse ++ read)) rest := by
  induction word generalizing read with
  | nil => rfl
  | cons c word ih =>
    have hc : advance? (.word read) c = some ([], .word (c :: read)) :=
      if_pos (h c List.mem_cons_self)
    rw [List.cons_append, tokensFrom?, hc, List.reverse_cons, List.append_assoc]
    dsimp only
    rw [ih fun c' hc' => h c' (List.mem_cons_of_mem c hc')]
    exact Option.map_id'

theorem start?_of_isWordPart {c : Char} (h : isWordPart c = true) :
    start? c = some ([], .word [c]) := by
  have hspace : isSpace c = false := by
    rw [← Bool.not_eq_true]
    intro hspace
    rw [isWordPart_of_isSpace hspace] at h
    cases h
  have hquote : c ≠ '"' := by
    rintro rfl
    cases h
  rw [start?, hspace, if_neg Bool.false_ne_true, if_neg hquote, if_pos h]

/-- **A word** is cut off where it ends. -/
theorem cutsWord_of_ofWord? {word : List Char} {token : Token} (hne : word ≠ [])
    (h : ∀ c ∈ word, isWordPart c = true) (hword : ofWord? word = some token) :
    CutsWord word [token] := by
  obtain ⟨first, others, rfl⟩ := List.exists_cons_of_ne_nil hne
  obtain ⟨hfirst, hothers⟩ := List.forall_mem_cons.mp h
  have hreverse : (others.reverse ++ [first]).reverse = first :: others := by
    rw [List.reverse_append, List.reverse_reverse]
    rfl
  intro rest hrest
  rw [List.cons_append, tokensFrom?, advance?, start?_of_isWordPart hfirst]
  dsimp only
  rw [tokensFrom?_word hothers]
  cases rest with
  | nil =>
    rw [tokensFrom?, finish?, hreverse, hword]
    rfl
  | cons c rest =>
    have hc : isWordPart c = false := hrest c rfl
    rw [tokensFrom?, advance?, hc, if_neg Bool.false_ne_true, hreverse, hword, tokensFrom?,
      advance?]
    cases start? c with
    | none => rfl
    | some p =>
      dsimp only
      rw [Option.map_map, Option.map_map]
      rfl

theorem isWordPart_of_isDigit {c : Char} (h : Decimal.isDigit c = true) : isWordPart c = true := by
  have hdigit : c.isDigit = true := h
  unfold isWordPart Char.isAlphanum
  rw [hdigit, Bool.or_true]
  rfl

/-- **The digits of a natural number** are cut into the number. -/
theorem cutsWord_digits (n : Nat) : CutsWord (Decimal.digits n) [.number (.ofNat n)] := by
  have hdigits := Decimal.isDigit_of_mem_digits n
  have hword : ofWord? (Decimal.digits n) = some (.number (.ofNat n)) := by
    have hno : ∀ c cs, Decimal.isDigit c = false → Decimal.digits n ≠ c :: cs := by
      intro c cs hc heq
      rw [hdigits c (by rw [heq]; exact List.mem_cons_self)] at hc
      cases hc
    rw [ofWord?, if_neg (hno _ _ rfl), if_neg (hno _ _ rfl), if_neg (hno _ _ rfl),
      Number.ofText?_digits, Option.map_some]
  refine cutsWord_of_ofWord? (Decimal.digits_ne_nil n) (fun c hc => ?_) hword
  exact isWordPart_of_isDigit (hdigits c hc)

end Token

end Nmos6502
