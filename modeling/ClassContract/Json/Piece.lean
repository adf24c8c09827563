/-!
# Pieces of JSON strings

Between its quotes a JSON string is a sequence of pieces: characters, written as such or by a short
escape, and 16-bit units written by four hexadecimal digits. Two units that form a surrogate pair
stand for one character; a surrogate without its partner stands for none, which is why a string can
be well formed as a text and still not be readable.

Main definitions: `Piece.chars` writes a piece, `decodePieces` gives the characters that pieces
stand for, `encodePieces` gives the pieces that a string is written with.
-/

namespace ClassContract

/-- One item between the quotes of a JSON string. -/
inductive Piece
  /-- A character, written directly or by a short escape. -/
  | char (c : Char)
  /-- A unit below `2 ^ 16`, written by four hexadecimal digits. -/
  | unit (u : Nat)
  deriving DecidableEq

/-- The value of a hexadecimal digit of either case. -/
def hexValue? (c : Char) : Option Nat :=
  if '0' ≤ c ∧ c ≤ '9' then some (c.toNat - '0'.toNat)
  else if 'a' ≤ c ∧ c ≤ 'f' then some (c.toNat - 'a'.toNat + 10)
  else if 'A' ≤ c ∧ c ≤ 'F' then some (c.toNat - 'A'.toNat + 10)
  else none

/-- The character that a backslash and a letter stand for, the unit escape apart. -/
def shortEscape? (c : Char) : Option Char :=
  match c with
  | '"' => some '"'
  | '\\' => some '\\'
  | '/' => some '/'
  | 'b' => some '\x08'
  | 'f' => some '\x0c'
  | 'n' => some '\n'
  | 'r' => some '\r'
  | 't' => some '\t'
  | _ => none

/-- The letter of the short escape that a character is written with, if it has one. -/
def escapeLetter? (c : Char) : Option Char :=
  match c with
  | '"' => some '"'
  | '\\' => some '\\'
  | '\x08' => some 'b'
  | '\x0c' => some 'f'
  | '\n' => some 'n'
  | '\r' => some 'r'
  | '\t' => some 't'
  | _ => none

/-- The four lower-case hexadecimal digits of a unit. -/
def unitDigits (u : Nat) : List Char :=
  [Nat.digitChar (u / 4096 % 16), Nat.digitChar (u / 256 % 16), Nat.digitChar (u / 16 % 16),
    Nat.digitChar (u % 16)]

/-- The written form of a piece. -/
def Piece.chars : Piece → List Char
  | .char c =>
    match escapeLetter? c with
    | some e => ['\\', e]
    | none => [c]
  | .unit u => '\\' :: 'u' :: unitDigits u

/-- Units that open a surrogate pair. -/
def isHighSurrogate (u : Nat) : Bool := 0xD800 ≤ u && u < 0xDC00

/-- Units that close a surrogate pair. -/
def isLowSurrogate (u : Nat) : Bool := 0xDC00 ≤ u && u < 0xE000

/-- The character of a surrogate pair. -/
def surrogatePair (high low : Nat) : Char :=
  Char.ofNat ((high - 0xD800) * 0x400 + (low - 0xDC00) + 0x10000)

/-- The characters that pieces stand for; nothing when a surrogate has no partner. -/
def decodePieces : List Piece → Option (List Char)
  | [] => some []
  | .char c :: ps => (decodePieces ps).map (c :: ·)
  | .unit u :: .unit v :: ps =>
    if isHighSurrogate u then
      if isLowSurrogate v then (decodePieces ps).map (surrogatePair u v :: ·) else none
    else if isLowSurrogate u then none
    else (decodePieces (.unit v :: ps)).map (Char.ofNat u :: ·)
  | .unit u :: ps =>
    if isHighSurrogate u || isLowSurrogate u then none
    else (decodePieces ps).map (Char.ofNat u :: ·)

/-- The piece that a character is written as: control characters without a short escape become
units, every other character stands for itself. -/
def Piece.ofChar (c : Char) : Piece :=
  if c.toNat < 0x20 && (escapeLetter? c).isNone then .unit c.toNat else .char c

/-- The pieces that a string is written with. -/
def encodePieces (s : String) : List Piece := s.toList.map Piece.ofChar

end ClassContract
