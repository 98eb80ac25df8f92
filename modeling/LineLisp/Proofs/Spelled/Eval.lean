/-
  LineLisp.Proofs.Spelled.Eval — evaluating and answering with texts in the place of
  names: a frame binds texts, and nothing is interned.

  The state is a stack of frames and no more. The rules, the costs, the errors and
  the way a line is answered are those of `LineLisp.Eval` and `LineLisp.Answer`.
-/

import LineLisp.Answer
import LineLisp.Proofs.Spelled.Expr
import LineLisp.Proofs.Spelled.Value

namespace LineLisp.Spelled

abbrev Frames := FrameStack Glyphs Value

abbrev EvalM := ExceptT Stop (StateM Frames)

def fail {α : Type} (span : Span) (cause : EvalCause) : EvalM α := throw (.error ⟨span, cause⟩)

def spend (budget cost : Nat) : EvalM Nat :=
  if budget < cost then throw .exhausted else pure (budget - cost)

def lookup (src : Source) (span : Span) (text : Glyphs) : EvalM Value := do
  match (← get).get? text with
  | some v => pure v
  | none => fail span (.unbound (src.slice span))

def evalAtom (src : Source) (span : Span) : Atom → EvalM Value
  | .bool b => pure (.bool b)
  | .integer n => pure (.int n)
  | .keyword text => pure (.keyword text)
  | .nil => pure .nil
  | .string =>
    match Span.of? (span.lo + 1) (span.hi - 1) with
    | some inner => pure (.str (.ofChars (src.slice inner)))
    | none => throw (.fault (.invalidSpan (span.lo + 1) (span.hi - 1)))
  | .symbol text => lookup src span text
  | .operator op => throw (.fault (.bareOperator op))

/-- The text that a definition or a binding is for. -/
def nameOf : Expr → EvalM Glyphs
  | .atom _ (.symbol text) => pure text
  | e => fail e.span .notASymbol

/-- Binds a text in the topmost frame. -/
def bindText (text : Glyphs) (v : Value) : EvalM Unit := modify (·.insert text v)

/-- Runs an action with an empty frame on top, and takes the topmost frame off. -/
def inFrame {α : Type} (action : EvalM α) : EvalM α := fun r =>
  let (result, r) := action (r.push .empty)
  (result, r.pop)

def call (budget : Nat) (span : Span) (b : Builtin) (args : List Value) : EvalM Value :=
  if stackNeed args b > budget then throw .exhausted
  else
    match resultOf args b with
    | some v => pure v
    | none => fail span .noValue

mutual

def eval (src : Source) (budget : Nat) : Expr → EvalM Value
  | .atom span a => evalAtom src span a
  | .group _ .square items => do
    let budget ← spend budget Eval.vectorCost
    return .vector (← evalEach src budget items)
  | .group span .round items =>
    match items with
    | [] => fail span .emptyList
    | .atom _ (.operator .define) :: args =>
      match args with
      | [target, value] => do
        let budget ← spend budget Eval.formCost
        let text ← nameOf target
        let v ← eval src budget value
        bindText text v
        return v
      | _ => fail span .defineShape
    | .atom _ (.operator .choose) :: args =>
      match args with
      | [condition, yes, no] => do
        let budget ← spend budget Eval.formCost
        if (← eval src budget condition).isTruthy then eval src budget yes
        else eval src budget no
      | _ => fail span .chooseShape
    | .atom _ (.operator .bind) :: args =>
      match args with
      | [.group _ _ slots, body] =>
        if slots.length % 2 = 0 then do
          let budget ← spend budget Eval.formCost
          inFrame do
            evalBindings src budget slots
            eval src budget body
        else fail span .oddBindings
      | [_, _] => fail span .bindingsShape
      | _ => fail span .bindShape
    | .atom head (.symbol text) :: args => do
      match ← lookup src head text with
      | .function b => do
        let budget ← spend budget Eval.callCost
        call budget span b (← evalEach src budget args)
      | _ => fail head .notAFunction
    | head :: _ => fail head.span .notASymbol

def evalEach (src : Source) (budget : Nat) : List Expr → EvalM (List Value)
  | [] => return []
  | e :: es => do
    let v ← eval src budget e
    return v :: (← evalEach src budget es)

def evalBindings (src : Source) (budget : Nat) : List Expr → EvalM Unit
  | target :: value :: rest => do
    let text ← nameOf target
    let v ← eval src budget value
    bindText text v
    evalBindings src budget rest
  | _ => return ()

end

/-! ## Answering -/

def evalLine (r : Frames) (src : Source) (e : Expr) : Except Failure Value × Frames :=
  let (result, r) := eval src Session.stackBudget e r
  (result.mapError (.ofStop e.span), r)

/-- Reads a line and evaluates it. -/
def run (r : Frames) (src : Source) : Except Failure Value × Frames :=
  match read src with
  | .error f => (.error (.ofReadFailure f), r)
  | .ok e => evalLine r src e

/-- The answer to what came of a line. -/
def respond (src : Source) : Except Failure Value → Except Fault (List Char)
  | .ok v => v.show?.map fun text => text.shown ++ ['\n']
  | .error (.read e) => .ok (e.diagnostic.render src)
  | .error (.eval e) => .ok (e.diagnostic.render src)
  | .error (.fault f) => .error f

def answer (r : Frames) (line : List Char) : Except Fault (List Char) × Frames :=
  let (result, r) := run r ⟨line, 0⟩
  (respond ⟨line, 0⟩ result, r)

/-- The answers to lines, one after another, and the frames at the end. -/
def answers (r : Frames) : List (List Char) → List (Except Fault (List Char)) × Frames
  | [] => ([], r)
  | line :: lines =>
    let (reply, r) := answer r line
    let (replies, r) := answers r lines
    (reply :: replies, r)

/-- The frames at the start: every built-in bound to its name. -/
def fresh : Frames :=
  Builtin.all.foldl (fun r b => r.insert (.ofString b.name) (.function b)) (.ofFrame .empty)

end LineLisp.Spelled
