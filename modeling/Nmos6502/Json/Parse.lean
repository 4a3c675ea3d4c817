import Nmos6502.Json.Token

/-!
# Reading JSON

The value that a sequence of tokens makes. The arrays and objects that are still open lie on a stack,
the innermost on top; each token either opens one, adds to the innermost, or closes it. The grammar is
strict: nothing is left out, and nothing follows the value.
-/

namespace Nmos6502

namespace Json

/-- An array or object that is still open. What it has so far is kept in reverse. -/
inductive Frame
  | array (before : List Json)
  /-- The value of `key` is still to come. -/
  | object (before : List (JsonText × Json)) (key : JsonText)

/-- What may come next, inside the arrays and objects that are open. -/
inductive Expected
  /-- A value. -/
  | value (stack : List Frame)
  /-- The first item of an array, or its end. -/
  | firstItem (stack : List Frame)
  /-- A comma, or the end of an array. -/
  | afterItem (before : List Json) (stack : List Frame)
  /-- The first key of an object, or its end. -/
  | firstKey (stack : List Frame)
  /-- A key. -/
  | key (before : List (JsonText × Json)) (stack : List Frame)
  /-- A colon. -/
  | colon (before : List (JsonText × Json)) (key : JsonText) (stack : List Frame)
  /-- A comma, or the end of an object. -/
  | afterMember (before : List (JsonText × Json)) (stack : List Frame)
  /-- Nothing. -/
  | nothing (value : Json)

/-- What may come after a value. -/
def afterValue (value : Json) : List Frame → Expected
  | [] => .nothing value
  | .array before :: stack => .afterItem (value :: before) stack
  | .object before key :: stack => .afterMember ((key, value) :: before) stack

/-- What may come after the first token of a value. -/
def beginValue? (stack : List Frame) : Token → Option Expected
  | .null => some (afterValue null stack)
  | .bool b => some (afterValue (bool b) stack)
  | .number n => some (afterValue (number n) stack)
  | .string text => some (afterValue (string text) stack)
  | .openBracket => some (.firstItem stack)
  | .openBrace => some (.firstKey stack)
  | .closeBracket | .closeBrace | .comma | .colon => none

/-- What may come after a token. -/
def advance? : Expected → Token → Option Expected
  | .value stack, token => beginValue? stack token
  | .firstItem stack, .closeBracket => some (afterValue (array []) stack)
  | .firstItem stack, token => beginValue? (.array [] :: stack) token
  | .afterItem before stack, .comma => some (.value (.array before :: stack))
  | .afterItem before stack, .closeBracket => some (afterValue (array before.reverse) stack)
  | .firstKey stack, .closeBrace => some (afterValue (object []) stack)
  | .firstKey stack, .string key => some (.colon [] key stack)
  | .key before stack, .string key => some (.colon before key stack)
  | .colon before key stack, .colon => some (.value (.object before key :: stack))
  | .afterMember before stack, .comma => some (.key before stack)
  | .afterMember before stack, .closeBrace =>
    some (afterValue (object before.reverse) stack)
  | _, _ => none

/-- The value that a sequence of tokens makes. -/
def ofTokens? (tokens : List Token) : Option Json :=
  match tokens.foldlM advance? (.value []) with
  | some (.nothing value) => some value
  | _ => none

/-- The value that a text stands for. -/
def ofText? (text : List Char) : Option Json :=
  (Token.tokens? text).bind ofTokens?

end Json

end Nmos6502
