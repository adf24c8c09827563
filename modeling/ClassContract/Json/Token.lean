import ClassContract.Json.Numeral
import ClassContract.Json.Piece

/-!
# Tokens of JSON texts

`lex` cuts a text into tokens in one pass over its characters. White space is a space, a tab, a
carriage return or a line feed and nothing else. A run of characters that is no token becomes
`Token.invalid`, and so does a string that is not closed; no grammar rule accepts that token.
`Token.chars` writes a token.
-/

namespace ClassContract

/-- A token of a JSON text. -/
inductive Token
  | openObject
  | closeObject
  | openArray
  | closeArray
  | colon
  | comma
  | null
  | bool (b : Bool)
  | number (n : Numeral)
  | string (ps : List Piece)
  | invalid
  deriving DecidableEq

namespace Token

/-- White space between tokens. -/
def isSpace (c : Char) : Bool := c == ' ' || c == '\t' || c == '\r' || c == '\n'

/-- The tokens of one character. -/
def punctuation? (c : Char) : Option Token :=
  match c with
  | '\x7b' => some .openObject
  | '\x7d' => some .closeObject
  | '[' => some .openArray
  | ']' => some .closeArray
  | ':' => some .colon
  | ',' => some .comma
  | _ => none

/-- The token written by a run of other characters. -/
def ofWord (cs : List Char) : Token :=
  if cs = ['n', 'u', 'l', 'l'] then .null
  else if cs = ['t', 'r', 'u', 'e'] then .bool true
  else if cs = ['f', 'a', 'l', 's', 'e'] then .bool false
  else
    match Numeral.ofChars? cs with
    | some n => .number n
    | none => .invalid

/-- What has been read of the token that is open. Characters and pieces are kept last first. -/
inductive Mode
  /-- Between tokens. -/
  | between
  /-- Inside a word or a number. -/
  | word (cs : List Char)
  /-- Inside a string. -/
  | text (ps : List Piece)
  /-- Inside a string, after a backslash. -/
  | escape (ps : List Piece)
  /-- Inside a unit escape: its value so far and the number of digits to come after the next. -/
  | hex (ps : List Piece) (value more : Nat)

/-- The effect of a character between tokens: the token it is, and what is open after it. -/
def start (c : Char) : List Token × Mode :=
  if isSpace c then ([], .between)
  else if c = '"' then ([], .text [])
  else
    match punctuation? c with
    | some t => ([t], .between)
    | none => ([], .word [c])

/-- Words end before white space, quotes and punctuation. -/
def endsWord (c : Char) : Bool := isSpace c || c == '"' || (punctuation? c).isSome

/-- The tokens of a text that begins inside the given mode. -/
def lexFrom : Mode → List Char → List Token
  | .between, [] => []
  | .between, c :: cs => (start c).1 ++ lexFrom (start c).2 cs
  | .word w, [] => [ofWord w.reverse]
  | .word w, c :: cs =>
    if endsWord c then ofWord w.reverse :: ((start c).1 ++ lexFrom (start c).2 cs)
    else lexFrom (.word (c :: w)) cs
  | .text ps, c :: cs =>
    if c = '"' then .string ps.reverse :: lexFrom .between cs
    else if c = '\\' then lexFrom (.escape ps) cs
    else if c.toNat < 0x20 then [.invalid]
    else lexFrom (.text (.char c :: ps)) cs
  | .escape ps, c :: cs =>
    if c = 'u' then lexFrom (.hex ps 0 3) cs
    else
      match shortEscape? c with
      | some d => lexFrom (.text (.char d :: ps)) cs
      | none => [.invalid]
  | .hex ps value more, c :: cs =>
    match hexValue? c with
    | some d =>
      if more = 0 then lexFrom (.text (.unit (16 * value + d) :: ps)) cs
      else lexFrom (.hex ps (16 * value + d) (more - 1)) cs
    | none => [.invalid]
  | .text _, [] => [.invalid]
  | .escape _, [] => [.invalid]
  | .hex _ _ _, [] => [.invalid]

/-- The tokens of a text. -/
def lex (cs : List Char) : List Token := lexFrom .between cs

/-- The written form of a token. The invalid token has none. -/
def chars : Token → List Char
  | .openObject => ['\x7b']
  | .closeObject => ['\x7d']
  | .openArray => ['[']
  | .closeArray => [']']
  | .colon => [':']
  | .comma => [',']
  | .null => ['n', 'u', 'l', 'l']
  | .bool true => ['t', 'r', 'u', 'e']
  | .bool false => ['f', 'a', 'l', 's', 'e']
  | .number n => n.chars
  | .string ps => '"' :: (ps.flatMap Piece.chars ++ ['"'])
  | .invalid => []

end Token

end ClassContract
