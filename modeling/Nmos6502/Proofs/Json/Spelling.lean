import Mathlib.Data.List.Forall2
import Nmos6502.Json.Parse
import Nmos6502.Proofs.Json.Tokens
import Nmos6502.Proofs.Json.Values

/-!
# Spelled values

The layout of a plain value is a text of JSON that spells it (`Json.spells_layout`): this is an induction
over the value, in which a block encloses its items with a new line before each. Conversely a text is
cut into the tokens of the value that it spells (`Json.cutsWord_of_spells`), and so it is read as that
value (`Json.ofText?_of_spells`): this is an induction over the spelling, in which the blanks are cut
into nothing.
-/

namespace Nmos6502

namespace Json

open Token

/-! ### What is laid out -/

theorem pads_self (core : List Char) : Pads core core :=
  ⟨[], [], rfl, rfl, (List.append_nil core).symm⟩

theorem pads_before {blanks : List Char} (h : blanks.all isSpace = true) (core : List Char) :
    Pads core (blanks ++ core) :=
  ⟨blanks, [], h, rfl, (List.append_nil _).symm⟩

theorem all_newLine (level : Nat) : (newLine level).all isSpace = true := by
  unfold newLine
  rw [List.all_cons, List.all_replicate]
  simp [isSpace]

/-- A block encloses its items, with a new line before each. -/
theorem encloses_block (opening closing : Char) (level : Nat) (items : List (List Char)) :
    Encloses opening closing (items.map (newLine (level + 1) ++ ·))
      (block opening closing level items) := by
  cases items with
  | nil => exact ⟨[], rfl, rfl⟩
  | cons item items =>
    refine ⟨newLine level, all_newLine level, ?_⟩
    unfold block
    dsimp only
    rw [List.map_cons, intercalate_cons, intercalate_cons, List.flatMap_map]
    simp [List.append_assoc]

theorem text_ofNat (n : Nat) : (Number.ofNat n).text = Decimal.digits n := by
  simp [Number.text, Number.ofNat]

mutual

/-- **The layout of a plain value** spells it. -/
theorem spells_layout : ∀ {value : Json}, value.IsPlain → ∀ level, value.Spells (value.layout level)
  | _, .null, _ => .null
  | _, .bool true, _ => .true
  | _, .bool false, _ => .false
  | _, .natural (n := n) h, _ => by
    have hspells := Spells.natural h
    rw [← text_ofNat] at hspells
    exact hspells
  | _, .string h, _ => .string h
  | _, .array h, level => .array (spellsItems_layout h (level + 1)) (encloses_block _ _ level _)
  | _, .object h, level => .object (spellsMembers_layout h (level + 1)) (encloses_block _ _ level _)

theorem spellsItems_layout : ∀ {items : List Json}, AllPlain items → ∀ level,
    SpellsItems items ((layoutItems level items).map (newLine level ++ ·))
  | _, .nil, _ => .nil
  | _, .cons h hs, level =>
    .cons (spells_layout h level) (pads_before (all_newLine level) _) (spellsItems_layout hs level)

theorem spellsMembers_layout : ∀ {members : List (JsonText × Json)}, AllMembersPlain members →
    ∀ level, SpellsMembers members ((layoutMembers level members).map (newLine level ++ ·))
  | _, .nil, _ => .nil
  | _, .cons hkey h hs, level => by
    have hblank : [' '].all isSpace = true := rfl
    have hmember := SpellsMembers.cons hkey (pads_before (all_newLine level) _)
      (spells_layout h level) (pads_before hblank _) (spellsMembers_layout hs level)
    simpa [layoutMembers] using hmember

end

/-! ### What is read -/

theorem endsWord_blanks {blanks rest : List Char} (h : blanks.all isSpace = true)
    (hrest : EndsWord rest) : EndsWord (blanks ++ rest) := by
  cases blanks with
  | nil => exact hrest
  | cons c blanks =>
    exact endsWord_cons (isWordPart_of_isSpace (Bool.and_eq_true_iff.mp h).1) _

theorem cutsWord_append_blanks {text blanks : List Char} {tokens : List Token}
    (h : CutsWord text tokens) (hblanks : blanks.all isSpace = true) :
    CutsWord (text ++ blanks) tokens := by
  intro rest hrest
  rw [List.append_assoc, h _ (endsWord_blanks hblanks hrest), cuts_spaces hblanks rest]
  simp only [List.nil_append, Option.map_id_fun', id_eq]

/-- Blanks around a text are cut into nothing. -/
theorem cutsWord_of_pads {core text : List Char} {tokens : List Token} (h : Pads core text)
    (hcore : CutsWord core tokens) : CutsWord text tokens := by
  obtain ⟨before, after, hbefore, hafter, rfl⟩ := h
  have hcuts := (cuts_spaces hbefore).append_cutsWord (cutsWord_append_blanks hcore hafter)
  rwa [List.append_assoc]

variable {parts : List (List Char)} {tokens : List (List Token)}

/-- From part to part, up to the closing. No word goes on there. -/
theorem cuts_further {closing : Char} {last : Token}
    (hclosing : start? closing = some ([last], .between)) (hends : isWordPart closing = false)
    {blanks : List Char} (hblanks : blanks.all isSpace = true)
    (h : List.Forall₂ CutsWord parts tokens) :
    let text := parts.flatMap ([','] ++ ·) ++ (blanks ++ [closing])
    (∀ rest, EndsWord (text ++ rest)) ∧ Cuts text (tokens.flatMap ([.comma] ++ ·) ++ [last]) := by
  induction h with
  | nil =>
    refine ⟨fun rest => ?_, (cuts_spaces hblanks).append (cuts_mark hclosing)⟩
    rw [List.flatMap_nil, List.nil_append, List.append_assoc]
    exact endsWord_blanks hblanks (endsWord_cons hends _)
  | @cons part tokens parts others hpart h ih =>
    obtain ⟨hendsWord, hcuts⟩ := ih
    refine ⟨fun rest => endsWord_cons rfl _, ?_⟩
    have hcomma : Cuts [','] [.comma] := cuts_mark rfl
    have hfurther := (hcomma.append_cutsWord hpart).append hcuts hendsWord
    simpa only [List.flatMap_cons, List.append_assoc] using hfurther

/-- **Enclosed parts** are cut one by one, with commas between them. -/
theorem cuts_of_encloses {opening closing : Char} {first last : Token}
    (hopening : start? opening = some ([first], .between))
    (hclosing : start? closing = some ([last], .between)) (hends : isWordPart closing = false)
    {text : List Char} (henclosed : Encloses opening closing parts text)
    (h : List.Forall₂ CutsWord parts tokens) :
    Cuts text (first :: [.comma].intercalate tokens ++ [last]) := by
  obtain ⟨blanks, hblanks, rfl⟩ := henclosed
  have hopen := cuts_mark hopening
  cases h with
  | nil => exact hopen.append (cuts_further hclosing hends hblanks .nil).2
  | cons hpart h =>
    obtain ⟨hendsWord, hcuts⟩ := cuts_further hclosing hends hblanks h
    have henclosed := hopen.append (hpart.append hcuts hendsWord)
    rw [intercalate_cons, intercalate_cons]
    simpa using henclosed

mutual

/-- **A text** is cut into the tokens of the value that it spells. -/
theorem cutsWord_of_spells : ∀ {value : Json} {text : List Char}, Spells value text →
    CutsWord text value.tokens
  | _, _, .null => cutsWord_of_ofWord? (List.cons_ne_nil _ _) (List.all_eq_true.mp rfl) rfl
  | _, _, .true => cutsWord_of_ofWord? (List.cons_ne_nil _ _) (List.all_eq_true.mp rfl) rfl
  | _, _, .false => cutsWord_of_ofWord? (List.cons_ne_nil _ _) (List.all_eq_true.mp rfl) rfl
  | _, _, .natural (n := n) _ => cutsWord_digits n
  | _, _, .string h => (cuts_quoted h).cutsWord
  | _, _, .array h henclosed => (cuts_of_encloses rfl rfl rfl henclosed (cutsWord_items h)).cutsWord
  | _, _, .object h henclosed =>
    (cuts_of_encloses rfl rfl rfl henclosed (cutsWord_members h)).cutsWord

theorem cutsWord_items : ∀ {items : List Json} {parts : List (List Char)},
    SpellsItems items parts → List.Forall₂ CutsWord parts (tokensOfItems items)
  | _, _, .nil => .nil
  | _, _, .cons h hpads hs => .cons (cutsWord_of_pads hpads (cutsWord_of_spells h)) (cutsWord_items hs)

theorem cutsWord_members : ∀ {members : List (JsonText × Json)} {parts : List (List Char)},
    SpellsMembers members parts → List.Forall₂ CutsWord parts (tokensOfMembers members)
  | _, _, .nil => .nil
  | _, _, .cons hkey hpadsKey h hpads hs => by
    have hname := cutsWord_of_pads hpadsKey (cuts_quoted hkey).cutsWord
    have hcolon := hname.append (cuts_mark (c := ':') rfl) fun rest => endsWord_cons rfl _
    have hmember := hcolon.append_cutsWord (cutsWord_of_pads hpads (cutsWord_of_spells h))
    rw [List.append_assoc] at hmember
    exact .cons hmember (cutsWord_members hs)

end

/-- **A text** is read as the value that it spells. -/
theorem ofText?_of_spells {value : Json} {core text : List Char} (h : value.Spells core)
    (hpads : Pads core text) : ofText? text = some value := by
  have hcuts := cutsWord_of_pads hpads (cutsWord_of_spells h) [] (fun c hc => by cases hc)
  rw [List.append_nil] at hcuts
  unfold ofText? tokens?
  rw [hcuts]
  simp [tokensFrom?, finish?, ofTokens?_tokens]

/-! ### What can be used -/

mutual

/-- A plain value can be used where it is not nested too deeply. -/
theorem isUsable_of_isPlain : ∀ {value : Json}, value.IsPlain → ∀ {levels : Nat},
    value.depth ≤ levels → value.isUsable levels = true
  | _, .null, _, _ | _, .bool _, _, _ | _, .string _, _, _ => rfl
  | _, .natural h, _, _ => Number.isFinite_ofNat h
  | _, .array _, 0, hdepth | _, .object _, 0, hdepth => absurd hdepth (Nat.not_succ_le_zero _)
  | _, .array h, _ + 1, hdepth => allUsable_of_allPlain h (Nat.le_of_succ_le_succ hdepth)
  | _, .object h, _ + 1, hdepth =>
    allMembersUsable_of_allMembersPlain h (Nat.le_of_succ_le_succ hdepth)

theorem allUsable_of_allPlain : ∀ {items : List Json}, AllPlain items → ∀ {levels : Nat},
    depthOfItems items ≤ levels → allUsable items levels = true
  | _, .nil, _, _ => rfl
  | _, .cons h hs, _, hdepth => by
    obtain ⟨hfirst, hothers⟩ := Nat.max_le.mp hdepth
    rw [allUsable, isUsable_of_isPlain h hfirst, allUsable_of_allPlain hs hothers]
    rfl

theorem allMembersUsable_of_allMembersPlain : ∀ {members : List (JsonText × Json)},
    AllMembersPlain members → ∀ {levels : Nat}, depthOfMembers members ≤ levels →
      allMembersUsable members levels = true
  | _, .nil, _, _ => rfl
  | _, .cons _ h hs, _, hdepth => by
    obtain ⟨hfirst, hothers⟩ := Nat.max_le.mp hdepth
    rw [allMembersUsable, isUsable_of_isPlain h hfirst,
      allMembersUsable_of_allMembersPlain hs hothers]
    rfl

end

theorem isPlain_of_mem {item : Json} {items : List Json} (h : AllPlain items)
    (hmem : item ∈ items) : item.IsPlain ∧ item.depth ≤ depthOfItems items := by
  induction items with
  | nil => cases hmem
  | cons first items ih =>
    obtain _ | ⟨hfirst, hothers⟩ := h
    rcases List.mem_cons.mp hmem with rfl | hmem
    · exact ⟨hfirst, Nat.le_max_left _ _⟩
    · obtain ⟨hplain, hdepth⟩ := ih hothers hmem
      exact ⟨hplain, Nat.le_trans hdepth (Nat.le_max_right _ _)⟩

theorem isPlain_of_mem_members {key : JsonText} {value : Json} {members : List (JsonText × Json)}
    (h : AllMembersPlain members) (hmem : (key, value) ∈ members) :
    key.isSome = true ∧ value.IsPlain ∧ value.depth ≤ depthOfMembers members := by
  induction members with
  | nil => cases hmem
  | cons first members ih =>
    obtain _ | ⟨hkey, hfirst, hothers⟩ := h
    rcases List.mem_cons.mp hmem with hfound | hmem
    · cases hfound
      exact ⟨rfl, hfirst, Nat.le_max_left _ _⟩
    · obtain ⟨hsome, hplain, hdepth⟩ := ih hothers hmem
      exact ⟨hsome, hplain, Nat.le_trans hdepth (Nat.le_max_right _ _)⟩

end Json

end Nmos6502
