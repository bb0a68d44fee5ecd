import HybridCheck.Text.Printable

/-!
# Quoted text

Messages show a piece of input between quotes. Printable characters stand for themselves, the quote
and the backslash are escaped by a backslash, seven control characters have letter escapes, and
every other character is written by its code in hexadecimal: two digits for ASCII, four inside the
basic plane and eight beyond it.

A piece of a duration is shown by its bytes instead: characters beyond ASCII and control characters
below the blank are written as the bytes of their encoding.
-/

namespace HybridCheck.Text

def hexDigit (n : Nat) : Char :=
  if n < 10 then Char.ofNat (n + 48) else Char.ofNat (n + 87)

def hexDigits : (width : Nat) → (n : Nat) → List Char
  | 0, _ => []
  | width + 1, n => hexDigits width (n / 16) ++ [hexDigit (n % 16)]

/-- The escape of a character that is neither printable nor a control character with a letter. -/
def codeEscape (c : Char) : List Char :=
  if c.toNat < 0x80 then '\\' :: 'x' :: hexDigits 2 c.toNat
  else if c.toNat < 0x10000 then '\\' :: 'u' :: hexDigits 4 c.toNat
  else '\\' :: 'U' :: hexDigits 8 c.toNat

def controlLetter? (c : Char) : Option Char :=
  match c.toNat with
  | 7 => some 'a'
  | 8 => some 'b'
  | 9 => some 't'
  | 10 => some 'n'
  | 11 => some 'v'
  | 12 => some 'f'
  | 13 => some 'r'
  | _ => none

/-- A character as it is written inside quotes of the kind `mark`. -/
def escapeChar (mark c : Char) : List Char :=
  if c = mark ∨ c = '\\' then ['\\', c]
  else if isPrintable c then [c]
  else match controlLetter? c with
    | some l => ['\\', l]
    | none => codeEscape c

def quote (s : String) : String :=
  String.ofList ('"' :: (s.toList.flatMap (escapeChar '"') ++ ['"']))

def quoteChar (c : Char) : String :=
  String.ofList ('\'' :: (escapeChar '\'' c ++ ['\'']))

/-- The bytes of a character as escapes of two hexadecimal digits each. -/
def byteEscapes (c : Char) : List Char :=
  (String.utf8EncodeChar c).flatMap fun b => '\\' :: 'x' :: hexDigits 2 b.toNat

def escapeByBytes (c : Char) : List Char :=
  if c.toNat < 0x20 ∨ 0x80 ≤ c.toNat then byteEscapes c
  else if c = '"' ∨ c = '\\' then ['\\', c]
  else [c]

def quoteBytes (s : String) : String :=
  String.ofList ('"' :: (s.toList.flatMap escapeByBytes ++ ['"']))

end HybridCheck.Text
