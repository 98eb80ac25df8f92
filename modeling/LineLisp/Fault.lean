/-
  LineLisp.Fault — failures that are no error of the line: an input the library
  refuses to convert, a value or an expression that only a host program can have
  made, frames left in the wrong order, or the work running out of stack. They have
  no span and no diagnostic, and end what was being done.
-/

import LineLisp.Text
import LineLisp.Token

namespace LineLisp

/-! ## Things that are no values

Nothing at all, and decimal fractions. A host program can hand them to a function, and they
can be compared, but not printed. Zero has a sign, which is written and makes no difference
otherwise. -/

inductive Foreign
  | nothing
  /-- The fraction `m / 10 ^ k`, with a minus sign or without. -/
  | fraction (negative : Bool) (m k : Nat)
  deriving DecidableEq

namespace Foreign

/-- How the host writes it. -/
def text : Foreign → String
  | nothing => "None"
  | fraction negative m k =>
    String.ofList ((if negative then ['-'] else []) ++ Text.decimalText m k)

def isEqual : Foreign → Foreign → Bool
  | nothing, nothing => true
  | fraction s m k, fraction t n l => (s == t || m == 0) && m * Nat.pow 10 l == n * Nat.pow 10 k
  | _, _ => false

end Foreign

/-! ## Faults -/

inductive Fault
  | tooManyDigits (count : Nat)
  | invalidSpan (lo hi : Int)
  | bareOperator (op : Operator)
  | unknownExpression (kind : String)
  | framesOutOfOrder
  | unknownName (n : Int)
  | notAValue (thing : Foreign)
  | stackExhausted
  /-- A log level of digits that make no number. -/
  | invalidLevel (quoted : String)
  deriving DecidableEq

namespace Fault

/-- What a fault has to say; running out of stack says nothing. -/
def message? : Fault → Option String
  | tooManyDigits n =>
    some ("Exceeds the limit (4300 digits) for integer string conversion: value has " ++ toString n
      ++ " digits; use sys.set_int_max_str_digits() to increase the limit")
  | invalidSpan lo hi => some ("invalid span [" ++ toString lo ++ ", " ++ toString hi ++ ")")
  | bareOperator op =>
    some ("bare operator Operator." ++ op.word.toUpper ++ " reached the evaluator")
  | unknownExpression kind => some ("unknown expression kind " ++ kind)
  | framesOutOfOrder => some "environment frames popped out of order"
  | unknownName n => some (toString n)
  | notAValue thing => some ("not a spanlisp value: " ++ thing.text)
  | stackExhausted => none
  | invalidLevel quoted => some ("invalid literal for int() with base 10: " ++ quoted)

end Fault

end LineLisp
