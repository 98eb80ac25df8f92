/-
  LineLisp.Lexeme — cutting a line into lexemes.

  White space and commas separate. A bracket is a lexeme by itself; a string runs
  to its closing quote; a keyword and a word run on until a separator, a bracket or
  a quote. A lexeme never leaves characters behind: with the separators between
  them, the lexemes' texts are the whole line. What a lexeme means is decided in
  `LineLisp.Reading`; here a string that is never closed is a lexeme like others,
  and the last one.
-/

import LineLisp.Source
import LineLisp.Text
import LineLisp.Token

namespace LineLisp

inductive Shape
  | opener (b : Bracket)
  | closer (b : Bracket)
  | string
  | openString
  | keyword
  | word
  deriving DecidableEq

structure Lexeme where
  shape : Shape
  text : List Char
  pos : Int
  deriving DecidableEq

namespace Lexeme

def span (x : Lexeme) : Span := Span.ofLength x.pos x.text.length

/-! ## Character classes -/

def isSeparator (c : Char) : Bool := Text.isBlank c || c == ','

def isBracketOrQuote (c : Char) : Bool :=
  c == '(' || c == ')' || c == '[' || c == ']' || c == '"'

/-- Whether a keyword or a word goes on over this character. -/
def isRunning (c : Char) : Bool := !isSeparator c && !isBracketOrQuote c

/-! ## One lexeme -/

/-- How many characters of a text, read from inside a string, lead up to its closing
    quote, the quote counted. A backslash takes the next character with it, except
    that it cannot take a line feed. -/
def closingQuote? : List Char → Option Nat
  | [] => none
  | ['\\'] => none
  | '\\' :: c :: rest => if c = '\n' then none else (closingQuote? rest).map (· + 2)
  | '"' :: _ => some 1
  | _ :: rest => (closingQuote? rest).map (· + 1)

/-- The shape of the lexeme that starts with `c`, and how many of the characters
    after `c` belong to it. -/
def extent (c : Char) (rest : List Char) : Shape × Nat :=
  match c with
  | '(' => (.opener .round, 0)
  | ')' => (.closer .round, 0)
  | '[' => (.opener .square, 0)
  | ']' => (.closer .square, 0)
  | '"' =>
    match closingQuote? rest with
    | some n => (.string, n)
    | none => (.openString, rest.length)
  | ':' => (.keyword, (rest.takeWhile isRunning).length)
  | _ => (.word, (rest.takeWhile isRunning).length)

theorem closingQuote?_le {cs : List Char} {n : Nat} (h : closingQuote? cs = some n) :
    0 < n ∧ n ≤ cs.length := by
  fun_induction closingQuote? cs generalizing n with
  | case1 => simp at h
  | case2 => simp at h
  | case3 => simp at h
  | case4 c rest _ ih =>
    obtain ⟨m, hm, rfl⟩ := Option.map_eq_some_iff.1 h
    have := ih hm
    simp only [List.length_cons]; omega
  | case5 => simp at h; subst h; simp
  | case6 c rest _ _ _ ih =>
    obtain ⟨m, hm, rfl⟩ := Option.map_eq_some_iff.1 h
    have := ih hm
    simp only [List.length_cons]; omega

theorem extent_le (c : Char) (rest : List Char) : (extent c rest).2 ≤ rest.length := by
  have run : (rest.takeWhile isRunning).length ≤ rest.length :=
    (List.takeWhile_sublist _).length_le
  unfold extent
  split <;> try simp only [Nat.zero_le, run]
  split
  · rename_i h; exact (closingQuote?_le h).2
  · exact Nat.le_refl _

/-! ## All lexemes -/

/-- The lexemes of a text whose first character has position `pos`. -/
def ofChars (pos : Int) : List Char → List Lexeme
  | [] => []
  | c :: rest =>
    if isSeparator c then ofChars (pos + 1) rest
    else
      let (shape, n) := extent c rest
      ⟨shape, c :: rest.take n, pos⟩ :: ofChars (pos + 1 + n) (rest.drop n)
termination_by cs => cs.length

end Lexeme

def Source.lexemes (src : Source) : List Lexeme := Lexeme.ofChars src.start src.text

end LineLisp
