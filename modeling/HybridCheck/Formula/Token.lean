import HybridCheck.Symbol

/-!
# Tokens of formula text

Text is read byte by byte, each byte as the character with its code. Blanks separate tokens; a token
is an identifier, a number or a symbol. An identifier gives up a final underscore before a bracket
or the end of the text, so that the window of an operator such as `U_[0,1]` starts a token of its
own.

Every character is part of a token or blank: a token is the first character together with as many
further ones as `Token.extent?` says.
-/

namespace HybridCheck

inductive TokenKind where
  | ident
  | number
  | symbol
  deriving DecidableEq, Repr

structure Token where
  kind : TokenKind
  text : String
  offset : Nat
  deriving DecidableEq, Repr

namespace Token

def isBlank (c : Char) : Bool :=
  (9 ≤ c.toNat && c.toNat ≤ 13) || c.toNat = 0x20 || c.toNat = 0x85 || c.toNat = 0xA0

def isLetter (c : Char) : Bool := ('A' ≤ c && c ≤ 'Z') || ('a' ≤ c && c ≤ 'z')

def isNumeric (c : Char) : Bool := ('0' ≤ c && c ≤ '9') || c = '.'

/-- Whether an underscore before this text belongs to a window. -/
def opensWindow : List Char → Bool
  | [] => true
  | c :: _ => c = '[' || c = '('

def identLength : List Char → Nat
  | [] => 0
  | c :: cs =>
    if isIdentChar c && !(c = '_' && opensWindow cs) then identLength cs + 1 else 0

def numberLength : List Char → Nat
  | [] => 0
  | c :: cs => if isNumeric c then numberLength cs + 1 else 0

/-- The symbols, longer ones before those they begin with. -/
def symbols : List String :=
  ["[]", "<>", "/\\", "\\/", "->", "=>", "<=", ">=", "==", "!=",
    "<", ">", "=", "(", ")", "[", "]", ",", "_", "+", "-", "*", "/",
    "~", "!", "&", "|", "'"]

/-- Whether an identifier begins at a character. A lone underscore is a symbol. -/
def startsIdent (c : Char) (cs : List Char) : Bool :=
  isLetter c || (c = '_' && cs.head?.any isIdentChar)

/-- The class of the token that begins at a character, and how many further characters it takes. -/
def extent? (c : Char) (cs : List Char) : Option (TokenKind × Nat) :=
  if startsIdent c cs then some (.ident, identLength cs)
  else if isNumeric c then some (.number, numberLength cs)
  else (symbols.find? fun s => s.toList.isPrefixOf (c :: cs)).map
    fun s => (.symbol, s.length - 1)

/-- Splits text that begins at an offset into tokens. -/
def scanFrom (offset : Nat) : List Char → Attempt (List Token)
  | [] => .ok []
  | c :: cs =>
    if isBlank c then scanFrom (offset + 1) cs
    else
      match extent? c cs with
      | none => .error (.unreadable (.unexpectedChar c) offset)
      | some (kind, n) => do
        let rest ← scanFrom (offset + (n + 1)) (cs.drop n)
        return ⟨kind, String.ofList (c :: cs.take n), offset⟩ :: rest
termination_by cs => cs.length
decreasing_by
  · simp
  · rw [List.length_cons, List.length_drop]; omega

def scan (cs : List Char) : Attempt (List Token) := scanFrom 0 cs

end Token

/-- The bytes of a text, each as the character with its code. -/
def byteChars (s : String) : List Char := s.toUTF8.toList.map fun b => Char.ofNat b.toNat

end HybridCheck
