import Nmos6502.Json.Value
import Nmos6502.Text.Hexadecimal

/-!
# Tokens of JSON

A JSON text cut into brackets, braces, commas, colons, words, numbers and strings. The text is read
one character after the other; what has been read of the present token is its `Reading`. A word ends
where a character follows that no word contains, a string at its closing quote.
-/

namespace Nmos6502

/-- A token of a JSON text. -/
inductive Token
  | openBracket
  | closeBracket
  | openBrace
  | closeBrace
  | comma
  | colon
  | null
  | bool (b : Bool)
  | number (n : Number)
  | string (text : JsonText)
  deriving DecidableEq, Repr

namespace Token

/-! ### Strings -/

/-- A part of a string. -/
inductive Part
  | char (c : Char)
  /-- A UTF-16 code unit that is written as an escape. -/
  | unit (n : Nat)
  deriving DecidableEq, Repr

/-- Whether a code unit is the first of a pair. -/
def isHigh (n : Nat) : Bool := 0xD800 ≤ n && n < 0xDC00

/-- Whether a code unit is the second of a pair. -/
def isLow (n : Nat) : Bool := 0xDC00 ≤ n && n < 0xE000

/-- The character that a pair of code units stands for. -/
def ofPair (high low : Nat) : Char :=
  Char.ofNat (0x10000 + (high - 0xD800) * 0x400 + (low - 0xDC00))

/-- The text that some parts make; absent if a code unit lacks the other of its pair. -/
def textOfParts : List Part → JsonText
  | [] => some []
  | .char c :: rest => (textOfParts rest).map (c :: ·)
  | .unit n :: rest =>
    if isHigh n then
      match rest with
      | .unit m :: rest =>
        if isLow m then (textOfParts rest).map (ofPair n m :: ·) else none
      | _ => none
    else if isLow n then none
    else (textOfParts rest).map (Char.ofNat n :: ·)

/-- The character that a letter after a backslash stands for. -/
def escaped? (c : Char) : Option Char :=
  [('"', '"'), ('\\', '\\'), ('/', '/'), ('b', '\x08'), ('f', '\x0c'), ('n', '\n'), ('r', '\r'),
    ('t', '\t')].lookup c

/-! ### Words -/

/-- Whether a character is white space between tokens. -/
def isSpace (c : Char) : Bool :=
  c == ' ' || c == '\t' || c == '\n' || c == '\r'

/-- Whether a character may stand in a word. -/
def isWordPart (c : Char) : Bool :=
  c.isAlphanum || c == '+' || c == '-' || c == '.'

/-- The token that a word is. -/
def ofWord? (word : List Char) : Option Token :=
  if word = ['n', 'u', 'l', 'l'] then some null
  else if word = ['t', 'r', 'u', 'e'] then some (bool true)
  else if word = ['f', 'a', 'l', 's', 'e'] then some (bool false)
  else (Number.ofText? word).map number

/-- The token that a single character is. -/
def ofMark? (c : Char) : Option Token :=
  [('[', openBracket), (']', closeBracket), ('\x7b', openBrace), ('\x7d', closeBrace),
    (',', comma), (':', colon)].lookup c

/-! ### Reading -/

/-- What has been read of the present token, the last character first. -/
inductive Reading
  | between
  | word (read : List Char)
  | string (read : List Part)
  /-- A backslash has been read in a string. -/
  | escape (read : List Part)
  /-- Some digits of an escaped code unit, and its value so far. -/
  | unit (read : List Part) (count value : Nat)
  deriving DecidableEq, Repr

/-- A character that follows a finished token: the token that it is by itself, if it is one, and what
has been read then. -/
def start? (c : Char) : Option (List Token × Reading) :=
  if isSpace c then some ([], .between)
  else if c = '"' then some ([], .string [])
  else if isWordPart c then some ([], .word [c])
  else (ofMark? c).map fun token => ([token], .between)

/-- One character more: the tokens that it completes, and what has been read then. -/
def advance? : Reading → Char → Option (List Token × Reading)
  | .between, c => start? c
  | .word read, c =>
    if isWordPart c then some ([], .word (c :: read))
    else
      match ofWord? read.reverse, start? c with
      | some token, some (tokens, reading) => some (token :: tokens, reading)
      | _, _ => none
  | .string read, c =>
    if c = '"' then some ([Token.string (textOfParts read.reverse)], .between)
    else if c = '\\' then some ([], .escape read)
    else if c.toNat < 0x20 then none
    else some ([], .string (.char c :: read))
  | .escape read, c =>
    if c = 'u' then some ([], .unit read 0 0)
    else (escaped? c).map fun c => ([], .string (.char c :: read))
  | .unit read count value, c =>
    match Hexadecimal.value? c with
    | none => none
    | some digit =>
      if count = 3 then some ([], .string (.unit (value * 16 + digit) :: read))
      else some ([], .unit read (count + 1) (value * 16 + digit))

/-- The tokens that the end of the text completes. -/
def finish? : Reading → Option (List Token)
  | .between => some []
  | .word read => (ofWord? read.reverse).map ([·])
  | .string _ | .escape _ | .unit _ _ _ => none

/-- The tokens of a text, once something has been read. -/
def tokensFrom? : Reading → List Char → Option (List Token)
  | reading, [] => finish? reading
  | reading, c :: rest =>
    match advance? reading c with
    | none => none
    | some (tokens, reading) => (tokensFrom? reading rest).map fun others => tokens ++ others

/-- The tokens of a text. -/
def tokens? (text : List Char) : Option (List Token) :=
  tokensFrom? .between text

end Token

end Nmos6502
