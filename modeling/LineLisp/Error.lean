/-
  LineLisp.Error — what can be wrong with a line, by cause, and how it is shown.

  A `ReadError` says why a line is no expression, an `EvalError` why an expression
  has no value; each names the span to blame. The kinds group the causes
  (`ReadError.isReader_kind`, `EvalError.isEval_kind`), and `message` words them: a
  cause that says no more than its kind has the kind's description. A diagnostic shows
  an error: a heading, the line, and carets under the span to blame. An empty span gets
  one caret, and a span that starts before the line gets no indent.
-/

import LineLisp.Source
import LineLisp.Token

namespace LineLisp

/-! ## Kinds -/

inductive ErrorKind
  | unbalancedDelimiter
  | unexpectedToken
  | unexpectedEndOfInput
  | invalidInteger
  | unterminatedString
  | invalidKeyword
  | nestingTooDeep
  | emptyList
  | expectedFunction
  | expectedSymbol
  | undefinedSymbol
  | unsupportedOperation
  /-- Any error, any reading error, any evaluation error. -/
  | anyError
  | anyReadError
  | anyEvalError
  deriving DecidableEq

namespace ErrorKind

def name : ErrorKind → String
  | unbalancedDelimiter => "UnbalancedDelimiter"
  | unexpectedToken => "UnexpectedToken"
  | unexpectedEndOfInput => "UnexpectedEndOfInput"
  | invalidInteger => "InvalidInteger"
  | unterminatedString => "UnterminatedString"
  | invalidKeyword => "InvalidKeyword"
  | nestingTooDeep => "NestingTooDeep"
  | emptyList => "EmptyList"
  | expectedFunction => "ExpectedFunction"
  | expectedSymbol => "ExpectedSymbol"
  | undefinedSymbol => "UndefinedSymbol"
  | unsupportedOperation => "UnsupportedOperation"
  | anyError => "LispError"
  | anyReadError => "ReaderError"
  | anyEvalError => "EvalError"

def description : ErrorKind → String
  | unbalancedDelimiter => "this delimiter is never closed"
  | unexpectedToken => "unexpected token"
  | unexpectedEndOfInput => "unexpected end of input"
  | invalidInteger => "invalid integer literal"
  | unterminatedString => "unterminated string literal"
  | invalidKeyword => "expected a name after ':'"
  | nestingTooDeep => "expression is nested too deeply"
  | emptyList => "cannot evaluate an empty list"
  | expectedFunction => "expected a function"
  | expectedSymbol => "expected a symbol"
  | undefinedSymbol => "undefined symbol"
  | unsupportedOperation => "unsupported operation"
  | anyError | anyReadError | anyEvalError => "error"

def isReader : ErrorKind → Bool
  | unbalancedDelimiter | unexpectedToken | unexpectedEndOfInput | invalidInteger
  | unterminatedString | invalidKeyword | nestingTooDeep | anyReadError => true
  | _ => false

def isEval : ErrorKind → Bool
  | emptyList | expectedFunction | expectedSymbol | undefinedSymbol | unsupportedOperation
  | anyEvalError => true
  | _ => false

/-- All kinds. -/
def all : List ErrorKind :=
  [unbalancedDelimiter, unexpectedToken, unexpectedEndOfInput, invalidInteger, unterminatedString,
   invalidKeyword, nestingTooDeep, emptyList, expectedFunction, expectedSymbol, undefinedSymbol,
   unsupportedOperation, anyError, anyReadError, anyEvalError]

theorem mem_all (k : ErrorKind) : k ∈ all := by cases k <;> decide

def ofName? (s : String) : Option ErrorKind := all.find? (·.name == s)

end ErrorKind

/-! ## Reading -/

inductive ReadCause
  /-- A bracket that is still open where the line ends or another kind of bracket closes. -/
  | unbalanced
  /-- A closing bracket where an expression must start. -/
  | strayCloser (b : Bracket)
  /-- An operator that does not come first in a list. -/
  | misplacedOperator (op : Operator)
  /-- Something after the expression. -/
  | trailing
  | endOfInput
  /-- A word that starts like a number and is none. -/
  | malformedInteger
  /-- A number outside the 64-bit range. -/
  | integerRange
  | openString
  /-- A colon with no name after it. -/
  | emptyKeyword
  | tooDeep
  deriving DecidableEq

structure ReadError where
  span : Span
  cause : ReadCause
  deriving DecidableEq

namespace ReadError

def kind (e : ReadError) : ErrorKind :=
  match e.cause with
  | .unbalanced => .unbalancedDelimiter
  | .strayCloser _ | .misplacedOperator _ | .trailing => .unexpectedToken
  | .endOfInput => .unexpectedEndOfInput
  | .malformedInteger | .integerRange => .invalidInteger
  | .openString => .unterminatedString
  | .emptyKeyword => .invalidKeyword
  | .tooDeep => .nestingTooDeep

def message (e : ReadError) : String :=
  match e.cause with
  | .strayCloser b => "unexpected '" ++ String.singleton b.closer ++ "'"
  | .misplacedOperator op => "'" ++ op.word ++ "' must be at the head of a list"
  | .trailing => "expected end of input"
  | .integerRange => "integer literal does not fit in 64 bits"
  | _ => e.kind.description

theorem isReader_kind (e : ReadError) : e.kind.isReader = true := by
  rcases e with ⟨_, c⟩; cases c <;> rfl

end ReadError

/-! ## Evaluation -/

inductive EvalCause
  | emptyList
  | notAFunction
  | notASymbol
  /-- A symbol without a value, as it is spelt in the source. -/
  | unbound (spelling : List Char)
  | defineShape
  | chooseShape
  | bindShape
  /-- The bindings of a `let` are no list or vector. -/
  | bindingsShape
  | oddBindings
  /-- A function has no value for its arguments. -/
  | noValue
  | tooDeep
  deriving DecidableEq

structure EvalError where
  span : Span
  cause : EvalCause
  deriving DecidableEq

namespace EvalError

def kind (e : EvalError) : ErrorKind :=
  match e.cause with
  | .emptyList => .emptyList
  | .notAFunction => .expectedFunction
  | .notASymbol => .expectedSymbol
  | .unbound _ => .undefinedSymbol
  | .defineShape | .chooseShape | .bindShape | .bindingsShape | .oddBindings | .noValue
  | .tooDeep => .unsupportedOperation

def message (e : EvalError) : String :=
  match e.cause with
  | .unbound spelling => "undefined symbol '" ++ String.ofList spelling ++ "'"
  | .defineShape => "def requires a symbol and a value"
  | .chooseShape => "if requires a condition, a then-branch and an else-branch"
  | .bindShape => "let requires a binding form and a body"
  | .bindingsShape => "let bindings must be a list or vector"
  | .oddBindings => "let bindings must come in pairs"
  | .noValue => "function returned no value for these arguments"
  | .tooDeep => "expression is nested too deeply"
  | .emptyList | .notAFunction | .notASymbol => e.kind.description

theorem isEval_kind (e : EvalError) : e.kind.isEval = true := by
  rcases e with ⟨_, c⟩; cases c <;> rfl

end EvalError

/-! ## Diagnostics -/

structure Diagnostic where
  kind : ErrorKind
  message : String
  span : Span
  deriving DecidableEq

namespace Diagnostic

/-- An error of a kind, in its own words if it has any and else in the kind's. -/
def ofKind (kind : ErrorKind) (message : Option String) (span : Span) : Diagnostic :=
  let words := match message with
    | some m => if m = "" then kind.description else m
    | none => kind.description
  ⟨kind, words, span⟩

def heading (d : Diagnostic) : List Char :=
  "error: ".toList ++ d.kind.name.toList ++ ": ".toList ++ d.message.toList

def carets (d : Diagnostic) (src : Source) : List Char :=
  List.replicate (d.span.lo - src.start).toNat ' ' ++ List.replicate (max 1 d.span.length) '^'

def render (d : Diagnostic) (src : Source) : List Char :=
  d.heading ++ '\n' :: (src.text ++ '\n' :: (d.carets src ++ ['\n']))

end Diagnostic

def ReadError.diagnostic (e : ReadError) : Diagnostic := ⟨e.kind, e.message, e.span⟩

def EvalError.diagnostic (e : EvalError) : Diagnostic := ⟨e.kind, e.message, e.span⟩

end LineLisp
