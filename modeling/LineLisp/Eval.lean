/-
  LineLisp.Eval — the value of an expression in a session.

  Atoms stand for themselves, except that a symbol has the value it is bound to and
  a string the characters between its quotes. A vector has the values of its items,
  from left to right. A list is a special form if an operator heads it, and else the
  call of the function its head symbol is bound to:

      (def name value)             binds the name in the topmost frame
      (if condition then else)     evaluates one of the two branches
      (let [name value …] body)    binds in a new frame, which is left again however
                                   its evaluation ends

  Evaluation has a budget of stack: along every path from the root a call takes 4
  units, a special form 3 and a vector 2. A record needs stack too, where it is made.
  Whatever stops an evaluation, the session keeps what was done before: if there is no
  stack for a record, the name has been interned or bound without it, and the new frame
  is there and is not left. Then whoever leaves a frame next takes that one off instead
  of its own (`inFrame_run`).
-/

import LineLisp.Expr
import LineLisp.Session
import LineLisp.Source

namespace LineLisp

/-- What stops an evaluation. -/
inductive Stop
  | error (e : EvalError)
  | exhausted
  | fault (f : Fault)

abbrev EvalM := ExceptT Stop (StateM Session)

namespace Eval

def callCost : Nat := 4

def formCost : Nat := 3

def vectorCost : Nat := 2

def fail {α : Type} (span : Span) (cause : EvalCause) : EvalM α := throw (.error ⟨span, cause⟩)

/-- What is left of a budget after a cost. -/
def spend (budget cost : Nat) : EvalM Nat :=
  if budget < cost then throw .exhausted else pure (budget - cost)

/-- The value of the symbol at a span. -/
def lookup (src : Source) (span : Span) (name : Name) : EvalM Value := do
  match (← get).get? name with
  | some v => pure v
  | none => fail span (.unbound (src.slice span))

def evalAtom (src : Source) (span : Span) : Atom → EvalM Value
  | .bool b => pure (.bool b)
  | .integer n => pure (.int n)
  | .keyword name => pure (.keyword name)
  | .nil => pure .nil
  | .string =>
    match Span.of? (span.lo + 1) (span.hi - 1) with
    | some inner => pure (.str (.ofChars (src.slice inner)))
    | none => throw (.fault (.invalidSpan (span.lo + 1) (span.hi - 1)))
  | .symbol name => lookup src span name
  | .operator op => throw (.fault (.bareOperator op))
  | .unknown kind => throw (.fault (.unknownExpression kind))

/-- The name that a definition or a binding is for. -/
def nameOf : Expr → EvalM Name
  | .atom _ (.symbol name) => pure name
  | e => fail e.span .notASymbol

/-- Binds a name in the topmost frame. -/
def bindName (name : Name) (v : Value) : EvalM Unit := modify (·.bind name v)

/-- Makes a record, if there is stack for it. -/
def record (host : Host) (budget : Nat) (e : LogEvent) : EvalM Unit :=
  if budget < host.recordCost then throw .exhausted else modify (·.note e)

/-- Binds a name as `def` does, and records it. -/
def define (host : Host) (budget : Nat) (src : Source) (target : Span) (name : Name) (v : Value) : EvalM Unit := do
  bindName name v
  record host budget (.defined (src.slice target) (← get).depth)

/-- Takes over a table that the session's own has grown into, and records the new names. -/
def learn (host : Host) (budget : Nat) (names : NameTable) : EvalM Unit := do
  let fresh := (← get).names.newRecords names
  modify (·.setTable names)
  fresh.forM (record host budget)

/-- Puts a new frame on top and records it; its mark. -/
def enterFrame (host : Host) (budget : Nat) : EvalM Nat := do
  let mark ← modifyGet Session.enter
  record host budget (.pushed mark)
  return mark

/-- Leaves the frame of a mark after an action, however that ends. -/
def leaving {α : Type} (mark : Nat) (action : EvalM α) : EvalM α := fun s =>
  let (result, s) := action s
  match s.leave mark with
  | (true, s) => (result, s)
  | (false, s) => (.error (.fault .framesOutOfOrder), s)

/-- Runs an action in a new frame, which is left again however the action ends. -/
def inFrame {α : Type} (host : Host) (budget : Nat) (action : EvalM α) : EvalM α := do
  let mark ← enterFrame host budget
  leaving mark action

/-- What a reply means for the call at a span. -/
def replyResult (span : Span) : Reply → Except Stop Value
  | .value v => .ok v
  | .noValue => .error (.error ⟨span, .noValue⟩)
  | .exhausted => .error .exhausted
  | .fault f => .error (.fault f)

/-- Calls a function for the call at a span. -/
def call (host : Host) (budget : Nat) (span : Span) (f : Function) (args : List Value) : EvalM Value := do
  let (reply, names) := f.call host.functions budget (← get).names args
  learn host budget names
  MonadExcept.ofExcept (replyResult span reply)

mutual

def eval (host : Host) (src : Source) (budget : Nat) : Expr → EvalM Value
  | .atom span a => evalAtom src span a
  | .group _ .square items => do
    let budget ← spend budget vectorCost
    return .vector (← evalEach host src budget items)
  | .group span .round items =>
    match items with
    | [] => fail span .emptyList
    | .atom _ (.operator .define) :: args =>
      match args with
      | [target, value] => do
        let budget ← spend budget formCost
        let name ← nameOf target
        let v ← eval host src budget value
        define host budget src target.span name v
        return v
      | _ => fail span .defineShape
    | .atom _ (.operator .choose) :: args =>
      match args with
      | [condition, yes, no] => do
        let budget ← spend budget formCost
        if (← eval host src budget condition).isTruthy then eval host src budget yes
        else eval host src budget no
      | _ => fail span .chooseShape
    | .atom _ (.operator .bind) :: args =>
      match args with
      | [.group _ _ slots, body] =>
        if slots.length % 2 = 0 then do
          let budget ← spend budget formCost
          inFrame host budget do
            evalBindings host src budget slots
            eval host src budget body
        else fail span .oddBindings
      | [_, _] => fail span .bindingsShape
      | _ => fail span .bindShape
    | .atom head (.symbol name) :: args => do
      match ← lookup src head name with
      | .function f => do
        let budget ← spend budget callCost
        call host budget span f (← evalEach host src budget args)
      | _ => fail head .notAFunction
    | head :: _ => fail head.span .notASymbol

/-- The values of expressions, from left to right. -/
def evalEach (host : Host) (src : Source) (budget : Nat) : List Expr → EvalM (List Value)
  | [] => return []
  | e :: es => do
    let v ← eval host src budget e
    return v :: (← evalEach host src budget es)

/-- Binds names to values in the topmost frame, so that later values see earlier names. -/
def evalBindings (host : Host) (src : Source) (budget : Nat) : List Expr → EvalM Unit
  | target :: value :: rest => do
    let name ← nameOf target
    let v ← eval host src budget value
    bindName name v
    evalBindings host src budget rest
  | _ => return ()

end

/-! ## Running one action after another -/

theorem bind_run {ε σ α β : Type} (m : ExceptT ε (StateM σ) α) (f : α → ExceptT ε (StateM σ) β) (s : σ) :
    (m >>= f) s = match m s with
      | (.ok a, t) => f a t
      | (.error e, t) => (.error e, t) := by
  show ExceptT.bind m f s = _
  simp only [ExceptT.bind, ExceptT.mk, bind, StateT.bind]
  rcases m s with ⟨r, t⟩
  cases r <;> rfl

theorem pure_run {α : Type} (a : α) (s : Session) : (pure a : EvalM α) s = (.ok a, s) := rfl

theorem throw_run {α : Type} (e : Stop) (s : Session) : (throw e : EvalM α) s = (.error e, s) := rfl

theorem spend_run (budget cost : Nat) (s : Session) :
    spend budget cost s
      = if budget < cost then (.error .exhausted, s) else (.ok (budget - cost), s) := by
  unfold spend
  split <;> rfl

theorem lookup_run (src : Source) (span : Span) (name : Name) (s : Session) :
    lookup src span name s = match s.get? name with
      | some v => (.ok v, s)
      | none => (.error (.error ⟨span, .unbound (src.slice span)⟩), s) := by
  show (match s.get? name with | some v => pure v | none => fail span (.unbound (src.slice span))) s = _
  cases s.get? name <;> rfl

theorem record_run (host : Host) (budget : Nat) (e : LogEvent) (s : Session) :
    record host budget e s = if budget < host.recordCost then (.error .exhausted, s) else (.ok (), s.note e) := by
  unfold record
  split <;> rfl

/-- The name is bound also where the record fails. -/
theorem define_run (host : Host) (budget : Nat) (src : Source) (target : Span) (name : Name) (v : Value) (s : Session) :
    define host budget src target name v s
      = if budget < host.recordCost then (.error .exhausted, s.bind name v)
        else (.ok (), (s.bind name v).note (.defined (src.slice target) s.depth)) := by
  show record host budget (.defined (src.slice target) (s.bind name v).depth) (s.bind name v) = _
  rw [record_run, Session.depth_bind]

theorem forM_record_run (host : Host) (budget : Nat) (es : List LogEvent) (s : Session) :
    es.forM (record host budget) s
      = if es ≠ [] ∧ budget < host.recordCost then (.error .exhausted, s)
        else (.ok (), { s with log := s.log ++ es }) := by
  induction es generalizing s with
  | nil => simp; rfl
  | cons e es ih =>
    show (record host budget e >>= fun _ => es.forM (record host budget)) s = _
    rw [bind_run, record_run]
    by_cases hroom : budget < host.recordCost
    · simp [hroom]
    · simp [hroom, ih, Session.note]

/-- The names are in the table also where a record fails. -/
theorem learn_run (host : Host) (budget : Nat) (names : NameTable) (s : Session) :
    learn host budget names s
      = if s.names.newRecords names ≠ [] ∧ budget < host.recordCost then (.error .exhausted, s.setTable names)
        else (.ok (), s.setNames names) :=
  forM_record_run host budget (s.names.newRecords names) (s.setTable names)

theorem call_run (host : Host) (budget : Nat) (span : Span) (f : Function) (args : List Value) (s : Session) :
    call host budget span f args s
      = let (reply, names) := f.call host.functions budget s.names args
        if s.names.newRecords names ≠ [] ∧ budget < host.recordCost then (.error .exhausted, s.setTable names)
        else (replyResult span reply, s.setNames names) := by
  show (learn host budget (f.call host.functions budget s.names args).2 >>= fun _ =>
    MonadExcept.ofExcept (replyResult span (f.call host.functions budget s.names args).1) : EvalM Value) s = _
  rw [bind_run, learn_run]
  rcases f.call host.functions budget s.names args with ⟨reply, names⟩
  by_cases hroom : s.names.newRecords names ≠ [] ∧ budget < host.recordCost
  · simp only [if_pos hroom]
  · simp only [if_neg hroom]
    cases replyResult span reply <;> rfl

/-- The session in a new frame, with the record of that. -/
def entered (s : Session) : Session := s.enter.2.note (.pushed s.enter.1)

/-- Without stack for the record the frame is there all the same. -/
theorem enterFrame_run (host : Host) (budget : Nat) (s : Session) :
    enterFrame host budget s
      = if budget < host.recordCost then (.error .exhausted, s.enter.2) else (.ok s.enter.1, entered s) := by
  show (record host budget (.pushed s.enter.1) >>= fun _ => pure s.enter.1 : EvalM Nat) s.enter.2 = _
  rw [bind_run, record_run]
  by_cases hroom : budget < host.recordCost
  · rw [if_pos hroom, if_pos hroom]
  · rw [if_neg hroom, if_neg hroom]
    rfl

/-- An action has its own outcome, if the frame to leave after it is that of the mark. -/
theorem leaving_run {α : Type} (mark : Nat) (action : EvalM α) (s : Session) :
    leaving mark action s
      = (if (action s).2.depth = mark then (action s).1 else .error (.fault .framesOutOfOrder),
          ((action s).2.leave mark).2) := by
  simp only [leaving]
  rcases action s with ⟨r, t⟩
  have hb := t.fst_leave mark
  simp only
  generalize t.leave mark = left at hb ⊢
  rcases left with ⟨b, u⟩
  cases b with
  | true => rw [if_pos (beq_iff_eq.mp hb.symm)]
  | false => rw [if_neg (beq_eq_false_iff_ne.mp hb.symm)]

/-- A new frame without stack for its record stays, and the action is not run. Else the action
    runs in the frame and the topmost frame is left after it. -/
theorem inFrame_run {α : Type} (host : Host) (budget : Nat) (action : EvalM α) (s : Session) :
    inFrame host budget action s
      = if budget < host.recordCost then (.error .exhausted, s.enter.2)
        else leaving s.enter.1 action (entered s) := by
  rw [inFrame, bind_run, enterFrame_run]
  by_cases hroom : budget < host.recordCost
  · rw [if_pos hroom, if_pos hroom]
  · rw [if_neg hroom, if_neg hroom]

end Eval

end LineLisp
