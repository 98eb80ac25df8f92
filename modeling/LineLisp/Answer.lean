/-
  LineLisp.Answer — a session answers a line.

  Reading the line can fail, and so can evaluating what was read; both failures are
  answered with a diagnostic. In mode `read` the answer is the expression in its
  canonical text, in mode `eval` its printed value. Only a fault leaves a line
  without an answer: a number too long to convert, a value nested too deeply to print, or
  frames left out of order, after a frame that there was no stack to record. The session
  keeps what was done before.
-/

import LineLisp.Error
import LineLisp.Eval
import LineLisp.Expr
import LineLisp.Expr.Reader

namespace LineLisp

inductive Mode
  | read
  | eval
  deriving DecidableEq

/-- Why there is no expression or no value. -/
inductive Failure
  | read (e : ReadError)
  | eval (e : EvalError)
  | fault (f : Fault)

def Failure.ofReadFailure : ReadFailure → Failure
  | .error e => .read e
  | .tooManyDigits n => .fault (.tooManyDigits n)

/-- The failure of an evaluation; running out of stack is an error of the whole expression. -/
def Failure.ofStop (whole : Span) : Stop → Failure
  | .error e => .eval e
  | .exhausted => .eval ⟨whole, .tooDeep⟩
  | .fault f => .fault f

namespace Session

/-- The units of stack an evaluation may take. -/
def stackBudget : Nat := 985

/-- Reads a line, with stack enough for all records. -/
def read (s : Session) (src : Source) : Except Failure Expr × Session :=
  let (r, names) := src.read s.names
  (r.mapError .ofReadFailure, s.setNames names)

/-- Reads a line where records take stack. If there is none for the record of a new name, the
    line is nested too deeply; the name is in the table all the same. -/
def readIn (host : Host) (s : Session) (src : Source) : Except Failure Expr × Session :=
  match src.unrecorded? host.recordCost s.names with
  | some (names, more) => (.error (.read ⟨src.span, .tooDeep⟩), (s.setNames names).setTable more)
  | none => s.read src

def eval (host : Host) (s : Session) (src : Source) (e : Expr) : Except Failure Value × Session :=
  let (r, s) := Eval.eval host src stackBudget e s
  (r.mapError (.ofStop e.span), s)

/-- Reads a line and evaluates it. -/
def run (host : Host) (s : Session) (src : Source) : Except Failure Value × Session :=
  match s.readIn host src with
  | (.error f, s) => (.error f, s)
  | (.ok e, s) => s.eval host src e

/-- A value as it is answered: its printed form on a line. -/
def printed (s : Session) (v : Value) : Except Fault (List Char) :=
  (v.show? s.names).map fun text => text.shown ++ ['\n']

/-- The answer to a failure; it is recorded, unless it is a fault. -/
def refuse (s : Session) (src : Source) : Failure → Except Fault (List Char) × Session
  | .read e => (.ok (e.diagnostic.render src), s.note (.readFailed e.kind e.span))
  | .eval e => (.ok (e.diagnostic.render src), s.note (.evalFailed e.kind e.span))
  | .fault f => (.error f, s)

/-- The answer to a line, and the session after it. -/
def answer (host : Host) (mode : Mode) (s : Session) (line : List Char) :
    Except Fault (List Char) × Session :=
  let src : Source := ⟨line, 0⟩
  match mode with
  | .read =>
    match s.readIn host src with
    | (.ok e, s) => (.ok (e.print src ++ ['\n']), s)
    | (.error f, s) => s.refuse src f
  | .eval =>
    match s.run host src with
    | (.ok v, s) => (s.printed v, s)
    | (.error f, s) => s.refuse src f

end Session

end LineLisp
