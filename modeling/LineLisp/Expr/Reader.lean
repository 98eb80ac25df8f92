/-
  LineLisp.Expr.Reader — reading a line as one expression.

      expression  =  atom  |  '(' [operator] expression* ')'  |  '[' expression* ']'

  The reader keeps the groups that are open, innermost first, each with the items it
  has so far, and takes one token after another (`Reader.step`): a token opens a
  group, adds to the innermost one, or closes it. It stops at the first token that
  cannot go on, and never asks for more than the one token that shows whether
  something follows the expression. At most `maxOpen` groups may be open at once: each
  takes stack, and where a new name is recorded the record has what they leave.
-/

import LineLisp.Expr
import LineLisp.Reading

namespace LineLisp

/-- A group that is not closed yet, its last item first. -/
structure OpenGroup where
  opener : Span
  bracket : Bracket
  items : List Expr

namespace Reader

def maxOpen : Nat := 490

/-- What the reader has after a token: groups still open, or the whole expression. -/
inductive Progress
  | pending (groups : List OpenGroup)
  | complete (e : Expr)

/-- A finished expression goes into the innermost open group; if none is open it is
    the whole expression. -/
def place (e : Expr) : List OpenGroup → Progress
  | [] => .complete e
  | g :: outer => .pending ({ g with items := e :: g.items } :: outer)

/-- Whether the next item would come first in a list. -/
def atHead : List OpenGroup → Bool
  | ⟨_, .round, []⟩ :: _ => true
  | _ => false

def step (line : Span) (groups : List OpenGroup) (t : PlacedToken) : Except ReadError Progress :=
  match t.token with
  | .opener b =>
    if groups.length ≥ maxOpen then .error ⟨line, .tooDeep⟩
    else .ok (.pending (⟨t.span, b, []⟩ :: groups))
  | .closer b =>
    match groups with
    | [] => .error ⟨t.span, .strayCloser b⟩
    | g :: outer =>
      if g.bracket = b then .ok (place (.group (g.opener.join t.span) b g.items.reverse) outer)
      else .error ⟨g.opener, .unbalanced⟩
  | .operator op =>
    if atHead groups then .ok (place (.atom t.span (.operator op)) groups)
    else .error ⟨t.span, .misplacedOperator op⟩
  | .integer n => .ok (place (.atom t.span (.integer n)) groups)
  | .string => .ok (place (.atom t.span .string) groups)
  | .keyword name => .ok (place (.atom t.span (.keyword name)) groups)
  | .symbol name => .ok (place (.atom t.span (.symbol name)) groups)
  | .bool b => .ok (place (.atom t.span (.bool b)) groups)
  | .nil => .ok (place (.atom t.span .nil) groups)

/-- What is wrong when the line ends before the expression does. -/
def endError (eof : Span) : List OpenGroup → ReadError
  | [] => ⟨eof, .endOfInput⟩
  | g :: _ => ⟨g.opener, .unbalanced⟩

/-- Nothing may follow the expression. -/
def finish (e : Expr) (names : NameTable) : List Lexeme → Except ReadFailure Expr × NameTable
  | [] => (.ok e, names)
  | x :: _ =>
    match x.token names with
    | .error f => (.error f, names)
    | .ok (_, names) => (.error (.error ⟨x.span, .trailing⟩), names)

/-- Reading on with some groups open. -/
def readFrom (line eof : Span) (names : NameTable) (groups : List OpenGroup) :
    List Lexeme → Except ReadFailure Expr × NameTable
  | [] => (.error (.error (endError eof groups)), names)
  | x :: xs =>
    match x.token names with
    | .error f => (.error f, names)
    | .ok (t, names) =>
      match step line groups ⟨t, x.span⟩ with
      | .error e => (.error (.error e), names)
      | .ok (.pending groups) => readFrom line eof names groups xs
      | .ok (.complete e) => finish e names xs

/-- The units of stack that an open group takes. -/
def groupCost : Nat := 2

/-- The first new name, read on with some groups open, that there is no stack to record: the
    names before it and after it. The token after the expression has all of the stack. -/
def unrecorded? (recordCost : Nat) (line : Span) (names : NameTable) (groups : List OpenGroup) :
    List Lexeme → Option (NameTable × NameTable)
  | [] => none
  | x :: xs =>
    match x.token names with
    | .error _ => none
    | .ok (t, more) =>
      if names.size < more.size ∧ groupCost * (maxOpen - groups.length) < recordCost then some (names, more)
      else
        match step line groups ⟨t, x.span⟩ with
        | .ok (.pending groups) => unrecorded? recordCost line more groups xs
        | _ => none

end Reader

/-- The expression a line reads as, and the names after it; also a line that cannot
    be read leaves names behind. -/
def Source.read (src : Source) (names : NameTable) : Except ReadFailure Expr × NameTable :=
  Reader.readFrom src.span src.eof names [] src.lexemes

def Source.unrecorded? (src : Source) (recordCost : Nat) (names : NameTable) : Option (NameTable × NameTable) :=
  Reader.unrecorded? recordCost src.span names [] src.lexemes

end LineLisp
