import Nmos6502.Json.Parse

/-!
# Values and their tokens

Every JSON value is made by the tokens that write it (`Json.tokens`, `Json.ofTokens?_tokens`). The
tokens of a value lead from where a value is expected to what may come after it, whatever arrays
and objects are open (`Json.leads_tokens`); for the items of an array and the members of an object
this is an induction from comma to comma.
-/

namespace Nmos6502

theorem intercalate_cons {α : Type} (separator first : List α) (others : List (List α)) :
    separator.intercalate (first :: others) = first ++ others.flatMap (separator ++ ·) := by
  induction others generalizing first with
  | nil => rw [List.intercalate_singleton, List.flatMap_nil, List.append_nil]
  | cons second others ih =>
    rw [List.intercalate_cons_cons, ih, List.flatMap_cons, List.append_assoc, List.append_assoc]

namespace Json

/-! ### Writing -/

mutual

/-- The tokens that write a value. -/
def tokens : Json → List Token
  | null => [.null]
  | bool b => [.bool b]
  | number n => [.number n]
  | string text => [.string text]
  | array items => .openBracket :: [.comma].intercalate (tokensOfItems items) ++ [.closeBracket]
  | object members => .openBrace :: [.comma].intercalate (tokensOfMembers members) ++ [.closeBrace]

/-- The tokens of some values, each for itself. -/
def tokensOfItems : List Json → List (List Token)
  | [] => []
  | item :: items => item.tokens :: tokensOfItems items

/-- The tokens of some members, each for itself. -/
def tokensOfMembers : List (JsonText × Json) → List (List Token)
  | [] => []
  | (key, value) :: members => (.string key :: .colon :: value.tokens) :: tokensOfMembers members

end

/-! ### Reading -/

/-- Some tokens lead from one expectation to another. -/
def Leads (expected : Expected) (tokens : List Token) (expected' : Expected) : Prop :=
  tokens.foldlM advance? expected = some expected'

namespace Leads

variable {e e' e'' : Expected} {s t : List Token} {token : Token}

theorem nil : Leads e [] e := rfl

theorem cons (h : advance? e token = some e') (ht : Leads e' t e'') : Leads e (token :: t) e'' := by
  unfold Leads
  rw [List.foldlM_cons, h]
  exact ht

theorem append (hs : Leads e s e') (ht : Leads e' t e'') : Leads e (s ++ t) e'' := by
  unfold Leads at *
  rw [List.foldlM_append, hs]
  exact ht

theorem single (h : advance? e token = some e') : Leads e [token] e' :=
  cons h nil

/-- What begins in the same way goes on in the same way. -/
theorem of_first (h : Leads e (token :: t) e'') (hfirst : advance? e' token = advance? e token) :
    Leads e' (token :: t) e'' := by
  unfold Leads at *
  rw [List.foldlM_cons] at h ⊢
  rw [hfirst]
  exact h

end Leads

/-- A value begins with a token that closes no array. -/
theorem exists_tokens_eq_cons (v : Json) :
    ∃ token rest, v.tokens = token :: rest ∧ token ≠ .closeBracket := by
  cases v with
  | null => exact ⟨_, _, rfl, by decide⟩
  | bool b => exact ⟨_, _, rfl, by simp⟩
  | number n => exact ⟨_, _, rfl, by simp⟩
  | string text => exact ⟨_, _, rfl, by simp⟩
  | array items => exact ⟨_, _, rfl, by decide⟩
  | object members => exact ⟨_, _, rfl, by decide⟩

theorem advance?_firstItem {token : Token} (h : token ≠ .closeBracket) (stack : List Frame) :
    advance? (.firstItem stack) token = advance? (.value (.array [] :: stack)) token := by
  cases token with
  | closeBracket => exact absurd rfl h
  | _ => rfl

mutual

/-- **The tokens of a value** lead to what may come after the value. -/
theorem leads_tokens : ∀ (v : Json) (stack : List Frame),
    Leads (.value stack) v.tokens (afterValue v stack)
  | null, _ | bool _, _ | number _, _ | string _, _ => rfl
  | array [], _ => rfl
  | object [], _ => rfl
  | array (item :: items), stack => by
    have hitem := leads_tokens item (.array [] :: stack)
    have hitems := leads_items items [item] stack
    obtain ⟨token, rest, htokens, htoken⟩ := exists_tokens_eq_cons item
    rw [tokens, tokensOfItems, intercalate_cons]
    refine .cons rfl ((Leads.append ?_ hitems).append (.single ?_))
    · rw [htokens] at hitem ⊢
      exact hitem.of_first (advance?_firstItem htoken stack)
    · simp [advance?]
  | object ((key, value) :: members), stack => by
    have hvalue := leads_tokens value (.object [] key :: stack)
    have hmembers := leads_members members [(key, value)] stack
    rw [tokens, tokensOfMembers, intercalate_cons]
    refine .cons rfl ((Leads.append (.cons rfl (.cons rfl hvalue)) hmembers).append (.single ?_))
    simp [advance?]

/-- From item to item. -/
theorem leads_items : ∀ (items before : List Json) (stack : List Frame),
    Leads (.afterItem before stack) ((tokensOfItems items).flatMap (.comma :: ·))
      (.afterItem (items.reverse ++ before) stack)
  | [], _, _ => rfl
  | item :: items, before, stack => by
    have hitem := leads_tokens item (.array before :: stack)
    have hitems := leads_items items (item :: before) stack
    rw [tokensOfItems, List.flatMap_cons, List.reverse_cons, List.append_assoc]
    exact .append (.cons rfl hitem) hitems

/-- From member to member. -/
theorem leads_members : ∀ (members before : List (JsonText × Json)) (stack : List Frame),
    Leads (.afterMember before stack) ((tokensOfMembers members).flatMap (.comma :: ·))
      (.afterMember (members.reverse ++ before) stack)
  | [], _, _ => rfl
  | (key, value) :: members, before, stack => by
    have hvalue := leads_tokens value (.object before key :: stack)
    have hmembers := leads_members members ((key, value) :: before) stack
    rw [tokensOfMembers, List.flatMap_cons, List.reverse_cons, List.append_assoc]
    exact .append (.cons rfl (.cons rfl (.cons rfl hvalue))) hmembers

end

/-- **Every value is made by its tokens.** -/
theorem ofTokens?_tokens (v : Json) : ofTokens? v.tokens = some v := by
  have h := leads_tokens v []
  unfold Leads at h
  unfold ofTokens?
  rw [h]
  rfl

end Json

end Nmos6502
