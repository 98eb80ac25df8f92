/-
  LineLisp.Proofs.Session.Blame — evaluation errors blame the right node.

  The error of an evaluation is raised at a node that its run comes to, and what a node
  raises it raises at itself, at its head or at what should be a name. So the span of the
  error is the span of a node, and which node it is goes by the kind of the error
  (`errors_blame_nodes`). Only running out of stack is blamed on the whole expression.
-/

import LineLisp.Proofs.Eval.Blame
import LineLisp.Proofs.Expr.Spans
import LineLisp.Proofs.Session.Answers

namespace LineLisp

/-- The name of a symbol has the text that is at the symbol's span. -/
theorem Source.text?_of_symbol {src : Source} {names names' : NameTable} {e : Expr} {span : Span} {name : Name}
    (h : src.read names = (.ok e, names')) (hn : .atom span (.symbol name) ∈ e.nodes) :
    names'.text? name = some (.ofChars (src.slice span)) :=
  (written_of_atom h hn rfl).of_symbol.1

/-! ## What there is to blame -/

namespace Session

open Eval (Raised Raises Runs callCost evalEach)

/-- An evaluation as it starts. -/
def start (s : Session) (e : Expr) : Eval.Config := ⟨.expr stackBudget e, [], s⟩

/-- What stands in an expression where there has to be a symbol: at the head of a list, and
    no operator; or in the place of a name that `def` or `let` gives a value. -/
inductive WantsSymbol (e : Expr) : Expr → Prop
  | head {span : Span} {m : Expr} {rest : List Expr} : .group span .round (m :: rest) ∈ e.nodes → m.isOperator = false →
      WantsSymbol e m
  | target {span head : Span} {m value : Expr} :
      .group span .round [.atom head (.operator .define), m, value] ∈ e.nodes → WantsSymbol e m
  | slot {span head at_ : Span} {b : Bracket} {before rest : List Expr} {m value body : Expr} :
      .group span .round [.atom head (.operator .bind), .group at_ b (before ++ m :: value :: rest), body] ∈ e.nodes →
      before.length % 2 = 0 → WantsSymbol e m

/-- What is not supported: a list whose operator does not take its arguments, the call of a
    function that has no value for the values of its arguments, or an expression that runs
    out of stack. -/
inductive Unsupported (host : Host) (src : Source) (s : Session) (e : Expr) : Span → Prop
  | shape {span at_ : Span} {op : Operator} {args : List Expr} :
      .group span .round (.atom at_ (.operator op) :: args) ∈ e.nodes → ¬ op.Takes args → Unsupported host src s e span
  | noValue {span head : Span} {name : Name} {args : List Expr} {budget : Nat} {k : List Eval.Task} {t u : Session}
      {f : Function} {values : List Value} :
      .group span .round (.atom head (.symbol name) :: args) ∈ e.nodes →
      Runs host src (s.start e) ⟨.expr budget (.group span .round (.atom head (.symbol name) :: args)), k, t⟩ →
      t.get? name = some (.function f) → evalEach host src (budget - callCost) args t = (.ok values, u) →
      (f.call host.functions (budget - callCost) u.names values).1 = .noValue → Unsupported host src s e span
  | exhausted : (Eval.eval host src stackBudget e s).1 = .error .exhausted → Unsupported host src s e e.span

/-- What an evaluation error says of the expression whose evaluation in a session ended in
    it: the error is at a node, and the kind tells which. The table has the names with
    which the expression was read. -/
structure Blame (host : Host) (src : Source) (table : NameTable) (s : Session) (e : Expr) (err : EvalError) :
    Prop where
  node : ∃ n ∈ e.nodes, n.span = err.span
  /-- A symbol without a value, quoted as it is spelt. -/
  undefinedSymbol : err.kind = .undefinedSymbol → ∃ name, .atom err.span (.symbol name) ∈ e.nodes ∧
    table.text? name = some (.ofChars (src.slice err.span)) ∧
    err.message = "undefined symbol '" ++ String.ofList (src.slice err.span) ++ "'" ∧
    ∃ c, Runs host src (s.start e) c ∧ c.session.get? name = none
  /-- The symbol at the head of a list, with a value that is no function. -/
  expectedFunction : err.kind = .expectedFunction → ∃ span name args,
    .group span .round (.atom err.span (.symbol name) :: args) ∈ e.nodes ∧
    ∃ c v, Runs host src (s.start e) c ∧ c.session.get? name = some v ∧ ∀ f, v ≠ .function f
  emptyList : err.kind = .emptyList → .group err.span .round [] ∈ e.nodes
  expectedSymbol : err.kind = .expectedSymbol → ∃ m, m.span = err.span ∧ ¬ m.IsSymbol ∧ WantsSymbol e m
  unsupportedOperation : err.kind = .unsupportedOperation → Unsupported host src s e err.span

section

variable {host : Host} {src : Source} {names table : NameTable} {s : Session} {e : Expr}

theorem blame_unbound (hread : src.read names = (.ok e, table)) {span : Span} {name : Name} {c : Eval.Config}
    (hn : .atom span (.symbol name) ∈ e.nodes) (hruns : Runs host src (s.start e) c)
    (hget : c.session.get? name = none) : Blame host src table s e ⟨span, .unbound (src.slice span)⟩ where
  node := ⟨_, hn, rfl⟩
  undefinedSymbol _ := ⟨name, hn, Source.text?_of_symbol hread hn, rfl, c, hruns, hget⟩
  expectedFunction := nofun
  emptyList := nofun
  expectedSymbol := nofun
  unsupportedOperation := nofun

theorem blame_notASymbol {m : Expr} (hm : m ∈ e.nodes) (hsymbol : ¬ m.IsSymbol) (hwants : WantsSymbol e m) :
    Blame host src table s e ⟨m.span, .notASymbol⟩ where
  node := ⟨m, hm, rfl⟩
  undefinedSymbol := nofun
  expectedFunction := nofun
  emptyList := nofun
  expectedSymbol _ := ⟨m, rfl, hsymbol, hwants⟩
  unsupportedOperation := nofun

theorem blame_unsupported {n : Expr} {err : EvalError} (hkind : err.kind = .unsupportedOperation) (hn : n ∈ e.nodes)
    (hspan : n.span = err.span) (h : Unsupported host src s e err.span) : Blame host src table s e err where
  node := ⟨n, hn, hspan⟩
  undefinedSymbol hk := nomatch hkind.symm.trans hk
  expectedFunction hk := nomatch hkind.symm.trans hk
  emptyList hk := nomatch hkind.symm.trans hk
  expectedSymbol hk := nomatch hkind.symm.trans hk
  unsupportedOperation _ := h

theorem blame_of_raised {err : EvalError} (hread : src.read names = (.ok e, table))
    (h : Raised host src (s.start e) err) : Blame host src table s e err := by
  obtain ⟨budget, n, k, t, hruns, hraises⟩ := h
  have hsub : n.nodes ⊆ e.nodes := Eval.nodes_subset_of_runs hruns
  have hself : n ∈ e.nodes := hsub n.mem_nodes_self
  cases hraises with
  | unbound hget => exact blame_unbound hread hself hruns hget
  | unboundHead hget => exact blame_unbound hread (hsub (Expr.mem_nodes_of_mem List.mem_cons_self)) hruns hget
  | notAFunction hget hvalue =>
    have hhead := hsub (Expr.mem_nodes_of_mem List.mem_cons_self)
    exact ⟨⟨_, hhead, rfl⟩, nofun, fun _ => ⟨_, _, _, hself, _, _, hruns, hget, hvalue⟩, nofun, nofun, nofun⟩
  | emptyList => exact ⟨⟨_, hself, rfl⟩, nofun, nofun, fun _ => hself, nofun, nofun⟩
  | misshapen hshape hkind => exact blame_unsupported hkind hself rfl (.shape hself hshape)
  | head hsymbol hoperator =>
    have hhead := hsub (Expr.mem_nodes_of_mem List.mem_cons_self)
    exact blame_notASymbol hhead hsymbol (.head hself hoperator)
  | target hsymbol =>
    have htarget := hsub (Expr.mem_nodes_of_mem (List.mem_cons_of_mem _ List.mem_cons_self))
    exact blame_notASymbol htarget hsymbol (.target hself)
  | slot heven hsymbol =>
    have htarget := hsub (List.mem_cons_of_mem _ (Expr.mem_nodesEach (List.mem_cons_of_mem _ List.mem_cons_self)
      (Expr.mem_nodes_of_mem (List.mem_append_right _ List.mem_cons_self))))
    exact blame_notASymbol htarget hsymbol (.slot hself heven)
  | noValue hget hvalues hreply => exact blame_unsupported rfl hself rfl (.noValue hself hruns hget hvalues hreply)

theorem blame_of_error {err : EvalError} (hread : src.read names = (.ok e, table))
    (h : (s.eval host src e).1 = .error (.eval err)) : Blame host src table s e err := by
  obtain ⟨stop, hr, hstop⟩ := exists_stop_of_eval h
  cases stop with
  | error err' => cases hstop; exact blame_of_raised hread (Eval.exists_raises hr)
  | exhausted => cases hstop; exact blame_unsupported rfl e.mem_nodes_self rfl (.exhausted hr)
  | fault f => cases hstop

end

/-- For every expression that is read, whatever it is read with, and every session: an
    error of its evaluation is at the node that its kind tells. -/
theorem errors_blame_nodes (host : Host) (src : Source) (names : NameTable) (s : Session) (e : Expr) (err : EvalError)
    (hread : (src.read names).1 = .ok e) (h : (s.eval host src e).1 = .error (.eval err)) :
    Blame host src (src.read names).2 s e err :=
  blame_of_error (Prod.ext hread rfl) h

/-- A call that has no value, in the body of a `let` and in a vector. -/
theorem errors_blame_nodes_nested :
    let src : Source := ⟨"[(def a 1) (let [b a] (not b b))]".toList, 7⟩
    let err : EvalError := ⟨Span.ofLength 29 9, .noValue⟩
    ∃ e, (src.read fresh.names).1 = .ok e ∧ (fresh.eval Hosts.none src e).1 = .error (.eval err) ∧
      Blame Hosts.none src (src.read fresh.names).2 fresh e err := by
  intro src err
  have herr : ((src.read fresh.names).1.toOption.bind fun e => match (fresh.eval Hosts.none src e).1 with
      | .error (.eval err) => some err
      | _ => none) = some err := by decide +kernel
  obtain ⟨e, he, herr⟩ := Option.bind_eq_some_iff.mp herr
  have hread : (src.read fresh.names).1 = .ok e := Source.eq_ok_of_toOption he
  have heval : (fresh.eval Hosts.none src e).1 = .error (.eval err) := by
    split at herr
    · rename_i heval; cases herr; exact heval
    · cases herr
  exact ⟨e, hread, heval, errors_blame_nodes Hosts.none src fresh.names fresh e err hread heval⟩

end Session

end LineLisp
