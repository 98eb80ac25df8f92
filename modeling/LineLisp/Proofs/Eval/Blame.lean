/-
  LineLisp.Proofs.Eval.Blame — an evaluation error is raised at a node.

  When an evaluation ends in an error, its run comes to a node that raises this very error
  in the session there (`exists_raises`): nothing on the way out changes it. `Raises` says
  what there is to blame at a node, with the arguments of a call already evaluated where
  the function has no value for them.
-/

import LineLisp.Proofs.Eval.Invariant
import LineLisp.Proofs.Expr.Fragments

namespace LineLisp

def Expr.IsSymbol (e : Expr) : Prop := ∃ span name, e = .atom span (.symbol name)

theorem Expr.mem_nodes_of_mem {span : Span} {b : Bracket} {items : List Expr} {e : Expr} (h : e ∈ items) :
    e ∈ (group span b items).nodes :=
  List.mem_cons_of_mem _ (mem_nodesEach h e.mem_nodes_self)

/-- The arguments have the shape that the operator takes. -/
def Operator.Takes : Operator → List Expr → Prop
  | define, args => args.length = 2
  | choose, args => args.length = 3
  | bind, args => ∃ at_ b slots body, args = [.group at_ b slots, body] ∧ slots.length % 2 = 0

/-- What there is to evaluate is part of an expression. -/
def Properties.partOf (e : Expr) : Properties :=
  ⟨fun _ => True, fun n => n.nodes ⊆ e.nodes, fun _ => True, fun _ => True⟩

namespace Eval

/-! ## Where an action stops -/

section

variable {α β : Type} {m : EvalM α} {f : α → EvalM β} {s : Session}

theorem bind_error {e : Stop} (h : ((m >>= f) s).1 = .error e) :
    (m s).1 = .error e ∨ ∃ a t, m s = (.ok a, t) ∧ (f a t).1 = .error e := by
  rw [bind_run] at h
  generalize m s = x at h
  obtain ⟨e' | a, t⟩ := x
  · cases h
    exact Or.inl rfl
  · exact Or.inr ⟨a, t, rfl, h⟩

variable {err : EvalError}

/-- No cost is an error. -/
theorem spend_bind_error {budget cost : Nat} {f : Nat → EvalM β}
    (h : ((spend budget cost >>= f) s).1 = .error (.error err)) :
    spend budget cost s = (.ok (budget - cost), s) ∧ (f (budget - cost) s).1 = .error (.error err) := by
  rw [bind_run, spend_run] at h
  rw [spend_run]
  by_cases hcost : budget < cost
  · rw [if_pos hcost] at h
    cases h
  · rw [if_neg hcost] at h ⊢
    exact ⟨rfl, h⟩

theorem nameOf_bind_error {target : Expr} {f : Name → EvalM β} (h : ((nameOf target >>= f) s).1 = .error (.error err)) :
    (∃ name, nameOf target s = (.ok name, s) ∧ (f name s).1 = .error (.error err)) ∨
      ¬ target.IsSymbol ∧ err = ⟨target.span, .notASymbol⟩ := by
  by_cases hsymbol : target.IsSymbol
  · obtain ⟨span, name, rfl⟩ := hsymbol
    exact Or.inl ⟨name, rfl, h⟩
  · refine Or.inr ⟨hsymbol, ?_⟩
    have hfail : nameOf target = fail target.span .notASymbol := (nameOf_cases target).resolve_left hsymbol
    rw [hfail] at h
    cases h
    rfl

theorem lookup_error {src : Source} {span : Span} {name : Name}
    (h : (lookup src span name s).1 = .error (.error err)) :
    s.get? name = none ∧ err = ⟨span, .unbound (src.slice span)⟩ := by
  rw [lookup_run] at h
  cases hget : s.get? name with
  | none => rw [hget] at h; cases h; exact ⟨rfl, rfl⟩
  | some v => rw [hget] at h; cases h

theorem lookup_ok {src : Source} {span : Span} {name : Name} {v : Value} {t : Session}
    (h : lookup src span name s = (.ok v, t)) : s.get? name = some v ∧ t = s := by
  rw [lookup_run] at h
  cases hget : s.get? name with
  | none => rw [hget] at h; cases h
  | some w => rw [hget] at h; cases h; exact ⟨rfl, rfl⟩

theorem define_error {host : Host} {budget : Nat} {src : Source} {target : Span} {name : Name} {v : Value} :
    (define host budget src target name v s).1 ≠ .error (.error err) := by
  rw [define_run]
  split <;> simp

theorem inFrame_error {host : Host} {budget : Nat} (h : (inFrame host budget m s).1 = .error (.error err)) :
    enterFrame host budget s = (.ok s.enter.1, entered s) ∧ (m (entered s)).1 = .error (.error err) := by
  rw [inFrame_run] at h
  rw [enterFrame_run]
  by_cases hroom : budget < host.recordCost
  · rw [if_pos hroom] at h
    cases h
  rw [if_neg hroom, leaving_run] at h
  rw [if_neg hroom]
  refine ⟨rfl, ?_⟩
  by_cases hdepth : (m (entered s)).2.depth = s.enter.1
  · rwa [if_pos hdepth] at h
  · rw [if_neg hdepth] at h
    cases h

theorem call_error {host : Host} {budget : Nat} {span : Span} {f : Function} {args : List Value}
    (h : (call host budget span f args s).1 = .error (.error err)) :
    (f.call host.functions budget s.names args).1 = .noValue ∧ err = ⟨span, .noValue⟩ := by
  rw [call_run] at h
  generalize f.call host.functions budget s.names args = x at h ⊢
  obtain ⟨reply, names⟩ := x
  simp only at h
  split at h
  · cases h
  · cases reply <;> cases h
    exact ⟨rfl, rfl⟩

end

/-! ## The node that raises it -/

section

variable (host : Host) (src : Source)

/-- What a node raises by itself, in a session and with a budget. -/
inductive Raises (budget : Nat) (s : Session) : Expr → EvalError → Prop
  | unbound {span : Span} {name : Name} :
      s.get? name = none → Raises budget s (.atom span (.symbol name)) ⟨span, .unbound (src.slice span)⟩
  | unboundHead {span head : Span} {name : Name} {args : List Expr} : s.get? name = none →
      Raises budget s (.group span .round (.atom head (.symbol name) :: args)) ⟨head, .unbound (src.slice head)⟩
  | notAFunction {span head : Span} {name : Name} {args : List Expr} {v : Value} : s.get? name = some v →
      (∀ f, v ≠ .function f) →
      Raises budget s (.group span .round (.atom head (.symbol name) :: args)) ⟨head, .notAFunction⟩
  | emptyList {span : Span} : Raises budget s (.group span .round []) ⟨span, .emptyList⟩
  | misshapen {span at_ : Span} {op : Operator} {args : List Expr} {cause : EvalCause} : ¬ op.Takes args →
      EvalError.kind ⟨span, cause⟩ = .unsupportedOperation →
      Raises budget s (.group span .round (.atom at_ (.operator op) :: args)) ⟨span, cause⟩
  | head {span : Span} {head : Expr} {rest : List Expr} : ¬ head.IsSymbol → head.isOperator = false →
      Raises budget s (.group span .round (head :: rest)) ⟨head.span, .notASymbol⟩
  | target {span head : Span} {target value : Expr} : ¬ target.IsSymbol →
      Raises budget s (.group span .round [.atom head (.operator .define), target, value]) ⟨target.span, .notASymbol⟩
  | slot {span head at_ : Span} {b : Bracket} {before rest : List Expr} {target value body : Expr} :
      before.length % 2 = 0 → ¬ target.IsSymbol →
      Raises budget s
        (.group span .round [.atom head (.operator .bind), .group at_ b (before ++ target :: value :: rest), body])
        ⟨target.span, .notASymbol⟩
  /-- The arguments have values, and for these the function has none. -/
  | noValue {span head : Span} {name : Name} {args : List Expr} {f : Function} {values : List Value} {t : Session} :
      s.get? name = some (.function f) → evalEach host src (budget - callCost) args s = (.ok values, t) →
      (f.call host.functions (budget - callCost) t.names values).1 = .noValue →
      Raises budget s (.group span .round (.atom head (.symbol name) :: args)) ⟨span, .noValue⟩

/-- A run from the configuration comes to a node that raises the error. -/
def Raised (c : Config) (err : EvalError) : Prop :=
  ∃ budget n k s, Runs host src c ⟨.expr budget n, k, s⟩ ∧ Raises host src budget s n err

end

section

variable {host : Host} {src : Source} {c d : Config} {err : EvalError}

theorem Raises.of_refusal? {budget : Nat} {s : Session} {span blamed : Span} {items : List Expr} {cause : EvalCause}
    (h : refusal? span items = some (blamed, cause)) :
    Raises host src budget s (.group span .round items) ⟨blamed, cause⟩ := by
  cases refused_of_refusal? h with
  | emptyList => exact .emptyList
  | define hargs =>
    refine .misshapen (fun htakes => ?_) rfl
    obtain ⟨target, value, rfl⟩ := List.length_eq_two.mp htakes
    exact hargs target value rfl
  | choose hargs =>
    refine .misshapen (fun htakes => ?_) rfl
    obtain ⟨condition, yes, no, rfl⟩ := List.length_eq_three.mp htakes
    exact hargs condition yes no rfl
  | oddBindings hodd =>
    refine .misshapen ?_ rfl
    rintro ⟨_, _, _, _, ⟨⟩, heven⟩
    exact hodd heven
  | bindings hbindings =>
    refine .misshapen ?_ rfl
    rintro ⟨at_, b, slots, _, ⟨⟩, -⟩
    exact hbindings at_ b slots rfl
  | bind hgroup _ =>
    refine .misshapen ?_ rfl
    rintro ⟨at_, b, slots, body, rfl, -⟩
    exact hgroup at_ b slots body rfl
  | @head head rest hdefine hchoose hbind hsymbol =>
    refine .head (fun ⟨at_, name, hhead⟩ => hsymbol at_ name hhead) ?_
    cases head with
    | group at_ b items => rfl
    | atom at_ a =>
      cases a with
      | operator op =>
        cases op with
        | define => exact (hdefine at_ rfl).elim
        | choose => exact (hchoose at_ rfl).elim
        | bind => exact (hbind at_ rfl).elim
      | _ => rfl

theorem Raised.of_runs (h : Runs host src c d) (hd : Raised host src d err) : Raised host src c err := by
  obtain ⟨budget, n, k, s, hruns, hraises⟩ := hd
  exact ⟨budget, n, k, s, h.trans hruns, hraises⟩

theorem Raised.of_step (h : Step host src c d) (hd : Raised host src d err) : Raised host src c err :=
  hd.of_runs (.single h)

theorem Raises.raised {budget : Nat} {n : Expr} {k : List Task} {s : Session} (h : Raises host src budget s n err) :
    Raised host src ⟨.expr budget n, k, s⟩ err := ⟨budget, n, k, s, .refl, h⟩

/-- An expression with a value hands it to the task that waits for it. -/
theorem runs_of_value {budget : Nat} {e : Expr} {s t : Session} {v : Value} (h : eval host src budget e s = (.ok v, t))
    (k : List Task) : Runs host src ⟨.expr budget e, k, s⟩ ⟨.done (.ok v), k, t⟩ := by
  have hruns := runs_eval host src budget e k s
  rwa [outcome, h] at hruns

/-- A slot in the place of a name that is no symbol, and the error it raises. -/
def BadSlot (slots : List Expr) (err : EvalError) : Prop :=
  ∃ before target value rest, slots = before ++ target :: value :: rest ∧ before.length % 2 = 0 ∧ ¬ target.IsSymbol ∧
    err = ⟨target.span, .notASymbol⟩

theorem BadSlot.cons {slots : List Expr} (h : BadSlot slots err) (target value : Expr) :
    BadSlot (target :: value :: slots) err := by
  obtain ⟨before, target', value', rest, rfl, heven, hsymbol, herr⟩ := h
  refine ⟨target :: value :: before, target', value', rest, rfl, ?_, hsymbol, herr⟩
  simp only [List.length_cons]
  omega

end

/-! ### Forms -/

section

variable {host : Host} {src : Source} {err : EvalError} {budget : Nat} {span head : Span} {k : List Task} {s : Session}

/-- Where an expression stops at an error, the run has come to the node that raises it. -/
def Blames (host : Host) (src : Source) (err : EvalError) (budget : Nat) (e : Expr) : Prop :=
  ∀ k s, (eval host src budget e s).1 = .error (.error err) → Raised host src ⟨.expr budget e, k, s⟩ err

theorem blames_atom (a : Atom) : Blames host src err budget (.atom span a) := by
  intro k s h
  rw [eval] at h
  by_cases hsymbol : ∃ name, a = .symbol name
  · obtain ⟨name, rfl⟩ := hsymbol
    obtain ⟨hget, rfl⟩ := lookup_error h
    exact (Raises.unbound hget).raised
  · obtain ⟨r, hr, hfault⟩ := evalAtom_literal src span fun name ha => hsymbol ⟨name, ha⟩
    rw [hr] at h
    obtain ⟨f, hf⟩ := hfault _ h
    cases hf

theorem blames_define {target value : Expr} (hvalue : ∀ b, Blames host src err b value) :
    Blames host src err budget (.group span .round [.atom head (.operator .define), target, value]) := by
  intro k s h
  rw [eval] at h
  obtain ⟨hspend, h⟩ := spend_bind_error h
  rcases nameOf_bind_error h with ⟨name, hname, h⟩ | ⟨hsymbol, rfl⟩
  · refine .of_step .define ?_
    rw [after_of_ok hspend, after_of_ok hname]
    rcases bind_error h with h | ⟨v, t, -, h⟩
    · exact hvalue _ _ _ h
    · rcases bind_error h with h | ⟨_, _, -, h⟩
      · exact absurd h define_error
      · cases h
  · exact (Raises.target hsymbol).raised

theorem blames_choose {condition yes no : Expr} (hcondition : ∀ b, Blames host src err b condition)
    (hyes : ∀ b, Blames host src err b yes) (hno : ∀ b, Blames host src err b no) :
    Blames host src err budget (.group span .round [.atom head (.operator .choose), condition, yes, no]) := by
  intro k s h
  rw [eval] at h
  obtain ⟨hspend, h⟩ := spend_bind_error h
  refine .of_step .choose ?_
  rw [after_of_ok hspend]
  rcases bind_error h with h | ⟨v, t, hv, h⟩
  · exact hcondition _ _ _ h
  · refine .of_runs ((runs_of_value hv _).tail .chosen) ?_
    split at h
    · rw [if_pos ‹_›]
      exact hyes _ _ _ h
    · rw [if_neg ‹_›]
      exact hno _ _ _ h

/-- Where slots and their body stop at an error, the run has come to the node that raises it;
    but a slot that is no name is left to the `let` that it is a slot of. -/
def BlamesSlots (host : Host) (src : Source) (err : EvalError) (budget : Nat) (slots : List Expr) : Prop :=
  ∀ body, Blames host src err budget body → ∀ k s,
    ((evalBindings host src budget slots >>= fun _ => eval host src budget body) s).1 = .error (.error err) →
      Raised host src ⟨.slots budget slots body, k, s⟩ err ∨ BadSlot slots err

theorem blames_bind {at_ : Span} {b : Bracket} {slots : List Expr} {body : Expr} (heven : slots.length % 2 = 0)
    (hslots : ∀ b, BlamesSlots host src err b slots) (hbody : ∀ b, Blames host src err b body) :
    Blames host src err budget (.group span .round [.atom head (.operator .bind), .group at_ b slots, body]) := by
  intro k s h
  rw [eval, if_pos heven] at h
  obtain ⟨hspend, h⟩ := spend_bind_error h
  obtain ⟨henter, h⟩ := inFrame_error h
  -- what the new frame is left with does not matter, the slots and the body raise the error
  rcases hslots _ body (hbody _) (.frame s.enter.1 :: k) _ h with
    hraised | ⟨before, target, value, rest, rfl, hbefore, hsymbol, rfl⟩
  · refine .of_step (.bind heven) ?_
    rw [after_of_ok hspend, after_of_ok henter]
    exact hraised
  · exact (Raises.slot hbefore hsymbol).raised

/-- Where items stop at an error, the run has come to the node that raises it. -/
def BlamesItems (host : Host) (src : Source) (err : EvalError) (budget : Nat) (es : List Expr) : Prop :=
  ∀ use values k s, (evalEach host src budget es s).1 = .error (.error err) →
    Raised host src ⟨.items use budget values es, k, s⟩ err

theorem blames_call {name : Name} {args : List Expr} (hargs : ∀ b, BlamesItems host src err b args) :
    Blames host src err budget (.group span .round (.atom head (.symbol name) :: args)) := by
  intro k s h
  rw [eval] at h
  rcases bind_error h with h | ⟨v, t, hv, h⟩
  · obtain ⟨hget, rfl⟩ := lookup_error h
    exact (Raises.unboundHead hget).raised
  · obtain ⟨hget, rfl⟩ := lookup_ok hv
    cases v with
    | function f =>
      obtain ⟨hspend, h⟩ := spend_bind_error h
      -- an argument raises it, or all have values and the call itself does
      rcases bind_error h with h | ⟨values, u, hvalues, h⟩
      · refine .of_step .call ?_
        rw [after_of_ok hv]
        simp only [after_of_ok hspend]
        exact hargs _ _ _ _ _ h
      · obtain ⟨hreply, rfl⟩ := call_error h
        exact (Raises.noValue hget hvalues hreply).raised
    | _ =>
      cases h
      refine (Raises.notAFunction hget ?_).raised
      rintro _ ⟨⟩

theorem blames_cons {e : Expr} {es : List Expr} (he : Blames host src err budget e)
    (hes : BlamesItems host src err budget es) : BlamesItems host src err budget (e :: es) := by
  intro use values k s h
  rw [evalEach] at h
  refine .of_step .item ?_
  rcases bind_error h with h | ⟨v, t, hv, h⟩
  · exact he _ _ h
  · refine .of_runs ((runs_of_value hv _).tail .taken) ?_
    rcases bind_error h with h | ⟨vs, u, -, h⟩
    · exact hes _ _ _ _ h
    · cases h

theorem blames_slot {target value : Expr} {rest : List Expr} (hvalue : Blames host src err budget value)
    (hrest : BlamesSlots host src err budget rest) : BlamesSlots host src err budget (target :: value :: rest) := by
  intro body hbody k s h
  rw [evalBindings, bind_assoc] at h
  rcases nameOf_bind_error h with ⟨name, hname, h⟩ | ⟨hsymbol, rfl⟩
  · have hstep : Step host src ⟨.slots budget (target :: value :: rest) body, k, s⟩
        ⟨.expr budget value, .slot budget name rest body :: k, s⟩ := by
      have hslot := @Step.slot host src budget target value rest body k s
      rwa [after_of_ok hname] at hslot
    rw [bind_assoc] at h
    rcases bind_error h with h | ⟨v, t, hv, h⟩
    · exact Or.inl (.of_step hstep (hvalue _ _ h))
    · rcases hrest body hbody k _ h with hraised | hbad
      · have hruns := ((runs_of_value hv (.slot budget name rest body :: k)).tail .bound).head hstep
        exact Or.inl (hraised.of_runs hruns)
      · exact Or.inr (hbad.cons target value)
  · exact Or.inr ⟨[], target, value, rest, rfl, rfl, hsymbol, rfl⟩

end

/-- Whatever stops at an error has come to the node that raises it. -/
theorem blames_evaluators (host : Host) (src : Source) (err : EvalError) :
    (∀ budget e, Blames host src err budget e) ∧ (∀ budget es, BlamesItems host src err budget es) ∧
      ∀ budget slots, BlamesSlots host src err budget slots := by
  refine eval_induction (fun _ _ => blames_atom) ?vector ?refused ?define ?choose ?bind ?call ?nil ?cons ?slot ?done
  case vector =>
    intro budget span items ih k s h
    rw [eval] at h
    obtain ⟨hspend, h⟩ := spend_bind_error h
    refine .of_step .vector ?_
    rw [after_of_ok hspend]
    rcases bind_error h with h | ⟨vs, t, -, h⟩
    · exact ih _ _ _ _ _ h
    · cases h
  case refused =>
    intro budget span items blamed cause hrefused k s h
    rw [eval_refused host src budget hrefused] at h
    cases h
    exact (Raises.of_refusal? hrefused).raised
  case define => exact fun _ _ _ _ _ ih => blames_define ih
  case choose => exact fun _ _ _ _ _ _ ihc ihy ihn => blames_choose ihc ihy ihn
  case bind => exact fun _ _ _ _ _ _ _ heven ihs ihb => blames_bind heven ihs ihb
  case call => exact fun _ _ _ _ _ ih => blames_call ih
  case nil =>
    intro budget use values k s h
    rw [evalEach] at h
    cases h
  case cons => exact fun _ _ _ ihe ihes => blames_cons ihe ihes
  case slot => exact fun _ _ _ _ ihv ihr => blames_slot ihv ihr
  case done =>
    intro budget slots hlen body hbody k s h
    rw [evalBindings_done host src budget hlen, pure_bind] at h
    exact Or.inl (.of_step (.body hlen) (hbody _ _ h))

/-- An evaluation that ends in an error has come to a node that raises it. -/
theorem exists_raises {host : Host} {src : Source} {budget : Nat} {e : Expr} {s : Session} {err : EvalError}
    (h : (eval host src budget e s).1 = .error (.error err)) : Raised host src ⟨.expr budget e, [], s⟩ err :=
  (blames_evaluators host src err).1 budget e [] s h

/-! ## Nodes of the expression -/

section

variable {host : Host} {src : Source}

theorem kept_partOf (e : Expr) : Kept (.partOf e) host src where
  item h he _ hm := h (List.mem_cons_of_mem _ (Expr.mem_nodesEach he hm))
  atom _ _ _ := trivial
  vector _ := trivial
  call _ _ _ _ _ _ := ⟨fun _ _ => trivial, trivial⟩
  stop _ := trivial

/-- Whatever an evaluation comes to is part of the expression. -/
theorem nodes_subset_of_runs {budget b : Nat} {e n : Expr} {s t : Session} {k : List Task}
    (h : Runs host src ⟨.expr budget e, [], s⟩ ⟨.expr b n, k, t⟩) : n.nodes ⊆ e.nodes := by
  have hstart : (Config.mk (.expr budget e) [] s).Has (.partOf e) :=
    ⟨.expr (List.Subset.refl _), fun _ ht => (nomatch ht), fun _ _ => trivial, trivial⟩
  exact (Runs.keeps (kept_partOf e) h hstart).focus.exprs n List.mem_cons_self

end

end Eval

end LineLisp
