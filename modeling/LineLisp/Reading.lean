/-
  LineLisp.Reading — from lexemes to tokens, one at a time, so that a name is
  interned when its token is asked for and not before.

  The words of `Token.reserved` stand for themselves. Another word is a number if it
  is digits, with or without a minus sign before them; it is malformed if it only
  starts so; else it is a symbol. Digits are 0 to 9, a number must fit in 64 bits,
  and a number of more digits than `maxDigits` is not even looked at.
-/

import LineLisp.Error
import LineLisp.Lexeme
import LineLisp.Token

namespace LineLisp

/-- Why reading stopped: an error of the line, or a number too long to convert. -/
inductive ReadFailure
  | error (e : ReadError)
  | tooManyDigits (count : Nat)
  deriving DecidableEq

/-- A token and where it stands. -/
structure PlacedToken where
  token : Token
  span : Span
  deriving DecidableEq

def maxDigits : Nat := 4300

/-! ## Numbers -/

/-- A word without its minus sign. -/
def unsigned : List Char → List Char
  | '-' :: rest => rest
  | word => word

def isNumber (word : List Char) : Bool :=
  !(unsigned word).isEmpty && (unsigned word).all Char.isDigit

def startsLikeNumber (word : List Char) : Bool := (unsigned word).head?.any Char.isDigit

/-- The number that a word is written for. -/
def numberValue (word : List Char) : Int :=
  let n : Int := Nat.ofDigitChars 10 (unsigned word) 0
  if word.head? = some '-' then -n else n

/-! ## Tokens -/

namespace Lexeme

/-- The token of a word, and the names after it. -/
def wordToken (names : NameTable) (x : Lexeme) : Except ReadFailure (Token × NameTable) :=
  match Token.reserved? (String.ofList x.text) with
  | some t => .ok (t, names)
  | none =>
    if isNumber x.text then
      if (unsigned x.text).length > maxDigits then .error (.tooManyDigits (unsigned x.text).length)
      else if InWord (numberValue x.text) then .ok (.integer (numberValue x.text), names)
      else .error (.error ⟨x.span, .integerRange⟩)
    else if startsLikeNumber x.text then .error (.error ⟨x.span, .malformedInteger⟩)
    else
      let (name, names) := names.intern (Glyphs.ofChars x.text)
      .ok (.symbol name, names)

/-- The token of a lexeme, and the names after it. -/
def token (names : NameTable) (x : Lexeme) : Except ReadFailure (Token × NameTable) :=
  match x.shape with
  | .opener b => .ok (.opener b, names)
  | .closer b => .ok (.closer b, names)
  | .string => .ok (.string, names)
  | .openString => .error (.error ⟨x.span, .openString⟩)
  | .keyword =>
    match x.text.tail with
    | [] => .error (.error ⟨x.span, .emptyKeyword⟩)
    | text =>
      let (name, names) := names.intern (Glyphs.ofChars text)
      .ok (.keyword name, names)
  | .word => x.wordToken names

end Lexeme

/-- All tokens up to the end or the first failure, and the names after them. -/
def tokens (names : NameTable) : List Lexeme → List PlacedToken × Option ReadFailure × NameTable
  | [] => ([], none, names)
  | x :: xs =>
    match x.token names with
    | .error e => ([], some e, names)
    | .ok (t, names) =>
      let (ts, stop, names) := tokens names xs
      (⟨t, x.span⟩ :: ts, stop, names)

def Source.tokens (src : Source) (names : NameTable) :
    List PlacedToken × Option ReadFailure × NameTable :=
  LineLisp.tokens names src.lexemes

end LineLisp
