import ClassContract.Text.Blank

/-!
# Quoted texts

Messages show a text between quotes. Quotes and backslashes have a backslash in front, and
characters that would not be seen are written by their code point.
-/

namespace ClassContract

/-- Whether a character is shown by its code point: control characters and all blanks but the
space. -/
def isHidden (c : Char) : Bool :=
  c.toNat < 0x20 || (0x7F ≤ c.toNat && c.toNat < 0xA0) || (isBlank c && c != ' ')

/-- The letter after a backslash that stands for a character in a quoted text. -/
def quotedLetter? (c : Char) : Option Char :=
  match c with
  | '"' => some '"'
  | '\\' => some '\\'
  | '\n' => some 'n'
  | '\r' => some 'r'
  | '\t' => some 't'
  | '\x00' => some '0'
  | _ => none

/-- A character of a quoted text. -/
def quotedChar (c : Char) : List Char :=
  match quotedLetter? c with
  | some e => ['\\', e]
  | none => if isHidden c then "\\u\x7b".toList ++ Nat.toDigits 16 c.toNat ++ ['\x7d'] else [c]

/-- A text between quotes. -/
def quoted (s : String) : String := String.ofList ('"' :: (s.toList.flatMap quotedChar ++ ['"']))

end ClassContract
