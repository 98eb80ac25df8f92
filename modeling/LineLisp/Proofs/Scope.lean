/-
  LineLisp.Proofs.Scope — evaluation with one finite map of bindings and no frames.

  The map is passed on: from one item of a vector to the next, from one argument to the
  next, from one binding to the next. `def` passes on the map with its name in it. A
  `let` is evaluated with a copy of the map, which is thrown away however that ends
  (`privately`). Nothing is ever taken out of a map or put back. The names that a
  built-in interns are passed on beside it. No records are made, but where they take stack
  there must be as much of it.
-/

import Mathlib.Data.Finmap
import LineLisp.Proofs.Eval.Shapes

namespace LineLisp

abbrev Bindings := Finmap fun _ : Name => Value

structure Scope where
  bindings : Bindings
  names : NameTable

abbrev ScopeM := ExceptT Stop (StateM Scope)

namespace Scope

def fail {α : Type} (span : Span) (cause : EvalCause) : ScopeM α := throw (.error ⟨span, cause⟩)

def spend (budget cost : Nat) : ScopeM Nat :=
  if budget < cost then throw .exhausted else pure (budget - cost)

def lookup (src : Source) (span : Span) (name : Name) : ScopeM Value := do
  match (← get).bindings.lookup name with
  | some v => pure v
  | none => fail span (.unbound (src.slice span))

def evalAtom (src : Source) (span : Span) : Atom → ScopeM Value
  | .bool b => pure (.bool b)
  | .integer n => pure (.int n)
  | .keyword name => pure (.keyword name)
  | .nil => pure .nil
  | .string =>
    match Span.of? (span.lo + 1) (span.hi - 1) with
    | some inner => pure (.str (.ofChars (src.slice inner)))
    | none => throw (.fault (.invalidSpan (span.lo + 1) (span.hi - 1)))
  | .symbol name => lookup src span name
  | .operator op => throw (.fault (.bareOperator op))
  | .unknown kind => throw (.fault (.unknownExpression kind))

def nameOf : Expr → ScopeM Name
  | .atom _ (.symbol name) => pure name
  | e => fail e.span .notASymbol

/-- Goes on with the map that has one more binding. -/
def extend (name : Name) (v : Value) : ScopeM Unit :=
  modify fun s => { s with bindings := s.bindings.insert name v }

/-- Runs an action on a copy of the map, which is thrown away however the action ends. -/
def privately {α : Type} (action : ScopeM α) : ScopeM α := fun s =>
  let (result, after) := action s
  (result, { after with bindings := s.bindings })

/-- Goes on if there is stack for a record. -/
def room (host : Host) (budget : Nat) : ScopeM Unit := if budget < host.recordCost then throw .exhausted else pure ()

/-- Goes on with a table that the own one has grown into; if it has, there is a record to make. -/
def learn (host : Host) (budget : Nat) (names : NameTable) : ScopeM Unit := do
  let old := (← get).names
  modify fun s => { s with names := names }
  if old.newRecords names = [] then pure () else room host budget

def call (host : Host) (budget : Nat) (span : Span) (f : Function) (args : List Value) : ScopeM Value := do
  let (reply, names) := f.call host.functions budget (← get).names args
  learn host budget names
  MonadExcept.ofExcept (Eval.replyResult span reply)

mutual

def eval (host : Host) (src : Source) (budget : Nat) : Expr → ScopeM Value
  | .atom span a => evalAtom src span a
  | .group _ .square items => do
    let budget ← spend budget Eval.vectorCost
    return .vector (← evalEach host src budget items)
  | .group span .round items =>
    match items with
    | [] => fail span .emptyList
    | .atom _ (.operator .define) :: args =>
      match args with
      | [target, value] => do
        let budget ← spend budget Eval.formCost
        let name ← nameOf target
        let v ← eval host src budget value
        extend name v
        room host budget
        return v
      | _ => fail span .defineShape
    | .atom _ (.operator .choose) :: args =>
      match args with
      | [condition, yes, no] => do
        let budget ← spend budget Eval.formCost
        if (← eval host src budget condition).isTruthy then eval host src budget yes
        else eval host src budget no
      | _ => fail span .chooseShape
    | .atom _ (.operator .bind) :: args =>
      match args with
      | [.group _ _ slots, body] =>
        if slots.length % 2 = 0 then do
          let budget ← spend budget Eval.formCost
          room host budget
          privately do
            evalBindings host src budget slots
            eval host src budget body
        else fail span .oddBindings
      | [_, _] => fail span .bindingsShape
      | _ => fail span .bindShape
    | .atom head (.symbol name) :: args => do
      match ← lookup src head name with
      | .function f => do
        let budget ← spend budget Eval.callCost
        call host budget span f (← evalEach host src budget args)
      | _ => fail head .notAFunction
    | head :: _ => fail head.span .notASymbol

def evalEach (host : Host) (src : Source) (budget : Nat) : List Expr → ScopeM (List Value)
  | [] => return []
  | e :: es => do
    let v ← eval host src budget e
    return v :: (← evalEach host src budget es)

def evalBindings (host : Host) (src : Source) (budget : Nat) : List Expr → ScopeM Unit
  | target :: value :: rest => do
    let name ← nameOf target
    let v ← eval host src budget value
    extend name v
    evalBindings host src budget rest
  | _ => return ()

end

/-! ## What the steps come to -/

theorem lookup_run (src : Source) (span : Span) (name : Name) (s : Scope) :
    lookup src span name s = match s.bindings.lookup name with
      | some v => (.ok v, s)
      | none => (.error (.error ⟨span, .unbound (src.slice span)⟩), s) := by
  show (match s.bindings.lookup name with
    | some v => pure v
    | none => fail span (.unbound (src.slice span)) : ScopeM Value) s = _
  cases s.bindings.lookup name <;> rfl

theorem room_run (host : Host) (budget : Nat) (s : Scope) :
    room host budget s = if budget < host.recordCost then (.error .exhausted, s) else (.ok (), s) := by
  unfold room
  split <;> rfl

theorem learn_run (host : Host) (budget : Nat) (names : NameTable) (s : Scope) :
    learn host budget names s
      = if s.names.newRecords names ≠ [] ∧ budget < host.recordCost then (.error .exhausted, { s with names := names })
        else (.ok (), { s with names := names }) := by
  show (if s.names.newRecords names = [] then pure () else room host budget : ScopeM Unit) { s with names := names } = _
  by_cases hnew : s.names.newRecords names = []
  · rw [if_pos hnew, if_neg fun h => h.1 hnew]
    rfl
  · rw [if_neg hnew, room_run]
    simp only [hnew, ne_eq, not_false_eq_true, true_and]

theorem call_run (host : Host) (budget : Nat) (span : Span) (f : Function) (args : List Value) (s : Scope) :
    call host budget span f args s
      = let (reply, names) := f.call host.functions budget s.names args
        if s.names.newRecords names ≠ [] ∧ budget < host.recordCost then (.error .exhausted, { s with names := names })
        else (Eval.replyResult span reply, { s with names := names }) := by
  show (learn host budget (f.call host.functions budget s.names args).2 >>= fun _ =>
    MonadExcept.ofExcept (Eval.replyResult span (f.call host.functions budget s.names args).1) : ScopeM Value) s = _
  rw [Eval.bind_run, learn_run]
  rcases f.call host.functions budget s.names args with ⟨reply, names⟩
  by_cases hroom : s.names.newRecords names ≠ [] ∧ budget < host.recordCost
  · simp only [if_pos hroom]
  · simp only [if_neg hroom]
    cases Eval.replyResult span reply <;> rfl

/-! ## Shapes -/

theorem eval_refused (host : Host) (src : Source) (budget : Nat) {span blamed : Span} {items : List Expr}
    {cause : EvalCause} (h : Eval.refusal? span items = some (blamed, cause)) :
    eval host src budget (.group span .round items) = fail blamed cause := by
  cases Eval.refused_of_refusal? h with
  | oddBindings hodd => rw [eval, if_neg hodd]
  | _ => rw [eval] <;> assumption

theorem evalBindings_done (host : Host) (src : Source) (budget : Nat) {slots : List Expr}
    (h : slots.length < 2) : evalBindings host src budget slots = pure () := by
  rw [evalBindings]
  exact Eval.not_pair h

end Scope

end LineLisp
