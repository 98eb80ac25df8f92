/-
  LineLisp.Proofs.Eval.Steps — evaluation in steps.

  A configuration is what is being done, the tasks that wait for the outcome of that, the
  innermost first, and the session. A value resumes the innermost task; a stop gives up
  one task after another, except that a frame is left as it is for a value. A step that has
  no stack for its record stops there.

  What holds of the plain steps, and of a definition if it holds of its value, holds from an
  expression to the outcome of its evaluation (`Closed.evaluators`). So an evaluation is a
  run of steps, to its outcome and its session (`runs_eval`). No configuration has two next
  ones (`Step.unique`), so whatever a run from an expression comes by is on the way to the
  outcome (`runs_to_outcome`): these configurations are the points of the evaluation.
-/

import Mathlib.Logic.Relation
import LineLisp.Proofs.Eval.Effect

namespace LineLisp.Eval

/-! ## Configurations -/

/-- What the values of items are for. -/
inductive Use
  | vector
  | call (span : Span) (f : Function)

def Use.finish (host : Host) (budget : Nat) : Use → List Value → EvalM Value
  | vector, vs => pure (.vector vs)
  | call span f, vs => Eval.call host budget span f vs

/-- What waits for an outcome. -/
inductive Task
  /-- The value comes after those there are, and the rest is to be evaluated. -/
  | item (use : Use) (budget : Nat) (values : List Value) (rest : List Expr)
  | define (budget : Nat) (target : Span) (name : Name)
  | choose (budget : Nat) (yes no : Expr)
  | slot (budget : Nat) (name : Name) (rest : List Expr) (body : Expr)
  | frame (mark : Nat)

def Task.isFrame : Task → Bool
  | frame _ => true
  | _ => false

/-- What is being done. -/
inductive Focus
  | expr (budget : Nat) (e : Expr)
  | items (use : Use) (budget : Nat) (values : List Value) (rest : List Expr)
  | slots (budget : Nat) (slots : List Expr) (body : Expr)
  | done (outcome : Except Stop Value)

structure Config where
  focus : Focus
  tasks : List Task
  session : Session

/-- An action is done. -/
def outcome (m : EvalM Value) (tasks : List Task) (s : Session) : Config := ⟨.done (m s).1, tasks, (m s).2⟩

/-- What is done after an action, unless it stops. -/
def after {α : Type} (m : EvalM α) (tasks : List Task) (s : Session) (next : α → Session → Config) : Config :=
  match m s with
  | (.ok a, t) => next a t
  | (.error e, t) => ⟨.done (.error e), tasks, t⟩

section

variable {α : Type} {m : EvalM α} {k : List Task} {s t : Session} {next : α → Session → Config}

theorem after_of_ok {a : α} (h : m s = (.ok a, t)) : after m k s next = next a t := by
  rw [after, h]

theorem after_of_error {e : Stop} (h : m s = (.error e, t)) : after m k s next = ⟨.done (.error e), k, t⟩ := by
  rw [after, h]

end

/-! ## Steps -/

section

variable (host : Host) (src : Source)

inductive Step : Config → Config → Prop
  | atom {budget : Nat} {span : Span} {a : Atom} {k : List Task} {s : Session} :
      Step ⟨.expr budget (.atom span a), k, s⟩ (outcome (evalAtom src span a) k s)
  | vector {budget : Nat} {span : Span} {items : List Expr} {k : List Task} {s : Session} :
      Step ⟨.expr budget (.group span .square items), k, s⟩
        (after (spend budget vectorCost) k s fun left t => ⟨.items .vector left [] items, k, t⟩)
  | refused {budget : Nat} {span blamed : Span} {items : List Expr} {cause : EvalCause} {k : List Task} {s : Session} :
      refusal? span items = some (blamed, cause) →
      Step ⟨.expr budget (.group span .round items), k, s⟩ (outcome (fail blamed cause) k s)
  | define {budget : Nat} {span head : Span} {target value : Expr} {k : List Task} {s : Session} :
      Step ⟨.expr budget (.group span .round [.atom head (.operator .define), target, value]), k, s⟩
        (after (spend budget formCost) k s fun left t => after (nameOf target) k t fun name u =>
          ⟨.expr left value, .define left target.span name :: k, u⟩)
  | choose {budget : Nat} {span head : Span} {condition yes no : Expr} {k : List Task} {s : Session} :
      Step ⟨.expr budget (.group span .round [.atom head (.operator .choose), condition, yes, no]), k, s⟩
        (after (spend budget formCost) k s fun left t => ⟨.expr left condition, .choose left yes no :: k, t⟩)
  | bind {budget : Nat} {span head at_ : Span} {b : Bracket} {slots : List Expr} {body : Expr} {k : List Task}
      {s : Session} : slots.length % 2 = 0 →
      Step ⟨.expr budget (.group span .round [.atom head (.operator .bind), .group at_ b slots, body]), k, s⟩
        (after (spend budget formCost) k s fun left t => after (enterFrame host left) k t fun mark u =>
          ⟨.slots left slots body, .frame mark :: k, u⟩)
  | call {budget : Nat} {span head : Span} {name : Name} {args : List Expr} {k : List Task} {s : Session} :
      Step ⟨.expr budget (.group span .round (.atom head (.symbol name) :: args)), k, s⟩
        (after (lookup src head name) k s fun v t => match v with
          | .function f => after (spend budget callCost) k t fun left u => ⟨.items (.call span f) left [] args, k, u⟩
          | _ => outcome (fail head .notAFunction) k t)
  | item {use : Use} {budget : Nat} {values : List Value} {e : Expr} {rest : List Expr} {k : List Task} {s : Session} :
      Step ⟨.items use budget values (e :: rest), k, s⟩ ⟨.expr budget e, .item use budget values rest :: k, s⟩
  | taken {v : Value} {use : Use} {budget : Nat} {values : List Value} {rest : List Expr} {k : List Task} {s : Session} :
      Step ⟨.done (.ok v), .item use budget values rest :: k, s⟩ ⟨.items use budget (values ++ [v]) rest, k, s⟩
  | finished {use : Use} {budget : Nat} {values : List Value} {k : List Task} {s : Session} :
      Step ⟨.items use budget values [], k, s⟩ (outcome (use.finish host budget values) k s)
  | defined {v : Value} {budget : Nat} {target : Span} {name : Name} {k : List Task} {s : Session} :
      Step ⟨.done (.ok v), .define budget target name :: k, s⟩
        (after (Eval.define host budget src target name v) k s fun _ t => ⟨.done (.ok v), k, t⟩)
  | chosen {v : Value} {budget : Nat} {yes no : Expr} {k : List Task} {s : Session} :
      Step ⟨.done (.ok v), .choose budget yes no :: k, s⟩ ⟨.expr budget (if v.isTruthy then yes else no), k, s⟩
  | slot {budget : Nat} {target value : Expr} {rest : List Expr} {body : Expr} {k : List Task} {s : Session} :
      Step ⟨.slots budget (target :: value :: rest) body, k, s⟩
        (after (nameOf target) k s fun name t => ⟨.expr budget value, .slot budget name rest body :: k, t⟩)
  | bound {v : Value} {budget : Nat} {name : Name} {rest : List Expr} {body : Expr} {k : List Task} {s : Session} :
      Step ⟨.done (.ok v), .slot budget name rest body :: k, s⟩
        ⟨.slots budget rest body, k, (bindName name v s).2⟩
  | body {budget : Nat} {slots : List Expr} {body : Expr} {k : List Task} {s : Session} : slots.length < 2 →
      Step ⟨.slots budget slots body, k, s⟩ ⟨.expr budget body, k, s⟩
  | left {r : Except Stop Value} {mark : Nat} {k : List Task} {s : Session} :
      Step ⟨.done r, .frame mark :: k, s⟩
        ⟨.done (if s.depth = mark then r else .error (.fault .framesOutOfOrder)), k, (s.leave mark).2⟩
  | stopped {e : Stop} {task : Task} {k : List Task} {s : Session} : task.isFrame = false →
      Step ⟨.done (.error e), task :: k, s⟩ ⟨.done (.error e), k, s⟩

abbrev Runs : Config → Config → Prop := Relation.ReflTransGen (Step host src)

end

variable {host : Host} {src : Source} {c d d' : Config}

theorem Step.unique (h : Step host src c d) (h' : Step host src c d') : d = d' := by
  -- two slots bind a name and fewer bind none; the other rules differ in what is being done
  have two : ∀ {target value : Expr} {rest : List Expr}, ¬ (target :: value :: rest).length < 2 := by
    intro target value rest
    simp only [List.length_cons]
    omega
  cases h with
  | slot =>
    cases h' with
    | slot => rfl
    | body hlen => exact absurd hlen two
  | body hlen =>
    cases h' with
    | slot => exact absurd hlen two
    | body _ => rfl
  | _ => cases h' <;> first | rfl | simp_all [refusal?, Task.isFrame]

theorem not_step_done {r : Except Stop Value} {s : Session} : ¬ Step host src ⟨.done r, [], s⟩ d := by
  generalize hc : Config.mk (.done r) [] s = c
  intro h
  cases h <;> cases hc

/-- A run that comes by a configuration goes on from there to where no step is left. -/
theorem runs_to_final (hd : ∀ c', ¬ Step host src d c') (h : Runs host src c d) (h' : Runs host src c d') :
    Runs host src d' d := by
  have hunique : Relator.RightUnique (Step host src) := fun _ _ _ => Step.unique
  rcases Relation.ReflTransGen.total_of_right_unique hunique h h' with hdd | hdd
  · rcases hdd.cases_head with rfl | ⟨c', hstep, -⟩
    · exact .refl
    · exact absurd hstep (hd c')
  · exact hdd

/-! ## Relations that hold along an evaluation -/

/-- A form `(def target value)`. -/
def isDefinition : Expr → Bool
  | .group _ .round [.atom _ (.operator .define), _, _] => true
  | _ => false

/-- The next step neither begins nor ends a definition, and if it leaves a frame that is the
    frame which was entered, unless the evaluation ran short of stack. -/
def Config.Plain (host : Host) : Config → Prop
  | ⟨.expr _ e, _, _⟩ => isDefinition e = false
  | ⟨.done _, .define _ _ _ :: _, _⟩ => False
  | ⟨.done r, .frame mark :: _, s⟩ => 1 < mark ∧ (s.depth = mark ∨ RanShort host r)
  | _ => True

/-- A relation of what comes first to what comes later, which plain steps have, and
    definitions if their values have it. -/
structure Closed (host : Host) (src : Source) (R : Config → Config → Prop) : Prop where
  refl (c : Config) : R c c
  trans {c d e : Config} : R c d → R d e → R c e
  step {c d : Config} : Step host src c d → c.Plain host → R c d
  define (span head : Span) (target : Expr) {value : Expr} :
    (∀ budget k s, R ⟨.expr budget value, k, s⟩ (outcome (eval host src budget value) k s)) →
    ∀ budget k s, R ⟨.expr budget (.group span .round [.atom head (.operator .define), target, value]), k, s⟩
      (outcome (eval host src budget (.group span .round [.atom head (.operator .define), target, value])) k s)

theorem not_isDefinition_of_refusal? {span blamed : Span} {items : List Expr} {cause : EvalCause}
    (h : refusal? span items = some (blamed, cause)) : isDefinition (.group span .round items) = false := by
  unfold isDefinition
  split
  · rename_i heq
    cases heq
    cases h
  · rfl

section

variable {R : Config → Config → Prop} {k : List Task} {s : Session}

/-- An action and what follows it, as the steps have it. -/
theorem rel_after {α : Type} (hrefl : ∀ c, R c c) {m : EvalM α} {f : α → EvalM Value} {next : α → Session → Config}
    (h : ∀ a t, R (next a t) (outcome (f a) k t)) : R (after m k s next) (outcome (m >>= f) k s) := by
  unfold after outcome
  rw [bind_run]
  rcases m s with ⟨e | a, t⟩
  · exact hrefl _
  · exact h a t

/-- A task that takes a value is given up at a stop. -/
theorem rel_task {m : EvalM Value} {f : Value → EvalM Value} {task : Task}
    (hstop : ∀ e t, R ⟨.done (.error e), task :: k, t⟩ ⟨.done (.error e), k, t⟩)
    (h : ∀ v t, R ⟨.done (.ok v), task :: k, t⟩ (outcome (f v) k t)) :
    R (outcome m (task :: k) s) (outcome (m >>= f) k s) := by
  unfold outcome
  rw [bind_run]
  rcases m s with ⟨e | v, t⟩
  · exact hstop e t
  · exact h v t

variable (hR : Closed host src R)

include hR

theorem Closed.head (h : Step host src c d) (hc : c.Plain host) (hd : R d d') : R c d' := hR.trans (hR.step h hc) hd

theorem Closed.task {m : EvalM Value} {f : Value → EvalM Value} {task : Task} (hframe : task.isFrame = false)
    (hplain : ∀ r t, Config.Plain host ⟨.done r, task :: k, t⟩)
    (h : ∀ v t, R ⟨.done (.ok v), task :: k, t⟩ (outcome (f v) k t)) :
    R (outcome m (task :: k) s) (outcome (m >>= f) k s) :=
  rel_task (fun _ t => hR.step (.stopped hframe) (hplain _ t)) h

/-- A new frame is entered by a step, and left by one after the steps in between. -/
theorem Closed.inFrame {P : Name → Prop} {m : EvalM Value} {budget : Nat} {next : Nat → Session → Config}
    (hm : Confined host P m)
    (h : R (next s.enter.1 (entered s)) (outcome m (.frame s.enter.1 :: k) (entered s))) :
    R (after (enterFrame host budget) k s next) (outcome (inFrame host budget m) k s) := by
  have hmark : 1 < s.enter.1 := Nat.succ_lt_succ (Nat.succ_pos _)
  have hleft := @Step.left host src (m (entered s)).1 s.enter.1 k (m (entered s)).2
  unfold outcome after at *
  rw [enterFrame_run]
  by_cases hroom : budget < host.recordCost
  · rw [if_pos hroom, inFrame_run, if_pos hroom]
    exact hR.refl _
  rw [if_neg hroom]
  cases hm.frameEnd budget s with
  | unrecorded hnone => exact absurd hnone hroom
  | left f _ hf hrun =>
    have hdepth : (m (entered s)).2.depth = s.enter.1 := depth_of_push hf
    rw [if_pos hdepth] at hleft
    rw [hrun]
    exact hR.trans h (hR.step hleft ⟨hmark, Or.inl hdepth⟩)
  | strayed f g _ hshort hg hrun =>
    have hdepth : (m (entered s)).2.depth ≠ s.enter.1 := ne_of_eq_of_ne (depth_of_push_push hg) (Nat.succ_ne_self _)
    rw [if_neg hdepth] at hleft
    rw [hrun]
    exact hR.trans h (hR.step hleft ⟨hmark, Or.inr hshort⟩)

/-- Expressions, items and slots are evaluated by steps, whatever tasks wait. Slots are
    followed by their body, so the steps of the body are given. -/
theorem Closed.evaluators :
    (∀ budget e k s, R ⟨.expr budget e, k, s⟩ (outcome (eval host src budget e) k s)) ∧
    (∀ budget es use values k s, R ⟨.items use budget values es, k, s⟩
      (outcome (evalEach host src budget es >>= fun vs => use.finish host budget (values ++ vs)) k s)) ∧
    ∀ budget slots body, (∀ k s, R ⟨.expr budget body, k, s⟩ (outcome (eval host src budget body) k s)) →
      ∀ k s, R ⟨.slots budget slots body, k, s⟩
        (outcome (evalBindings host src budget slots >>= fun _ => eval host src budget body) k s) := by
  refine eval_induction ?atom ?vector ?refused ?define ?choose ?bind ?call ?nil ?cons ?slot ?done
  case atom =>
    intro budget span a k s
    rw [eval]
    exact hR.step .atom rfl
  case vector =>
    intro budget span items ih k s
    rw [eval]
    exact hR.head .vector rfl (rel_after hR.refl fun b t => ih b .vector [] k t)
  case refused =>
    intro budget span items blamed cause h k s
    rw [eval_refused host src budget h]
    exact hR.step (.refused h) (not_isDefinition_of_refusal? h)
  case define =>
    intro budget span head target value ih k s
    exact hR.define span head target ih budget k s
  case choose =>
    intro budget span head condition yes no ihc ihy ihn k s
    rw [eval]
    refine hR.head .choose rfl (rel_after hR.refl fun b t => ?_)
    refine hR.trans (ihc b _ t) (hR.task rfl (fun _ _ => trivial) fun v u => hR.head .chosen trivial ?_)
    split
    · exact ihy b k u
    · exact ihn b k u
  case bind =>
    intro budget span head at_ b slots body heven ihs ihb k s
    rw [eval, if_pos heven]
    refine hR.head (.bind heven) rfl (rel_after hR.refl fun left t => ?_)
    obtain ⟨confinedEval, -, confinedBindings⟩ := confined_evaluators host src
    exact hR.inFrame (confined_letScope host src left (confinedEval left body) (confinedBindings left slots))
      (ihs left body (ihb left) _ _)
  case call =>
    intro budget span head name args ih k s
    rw [eval]
    refine hR.head .call rfl (rel_after hR.refl fun v t => ?_)
    cases v with
    | function f => exact rel_after hR.refl fun left u => ih left (.call span f) [] k u
    | _ => exact hR.refl _
  case nil =>
    intro budget use values k s
    have hnil : (evalEach host src budget [] >>= fun vs => use.finish host budget (values ++ vs))
        = use.finish host budget values := by
      rw [evalEach, pure_bind, List.append_nil]
    rw [hnil]
    exact hR.step .finished trivial
  case cons =>
    intro budget e es ihe ihes use values k s
    have hcons : (evalEach host src budget (e :: es) >>= fun vs => use.finish host budget (values ++ vs))
        = eval host src budget e >>= fun v =>
            evalEach host src budget es >>= fun vs => use.finish host budget (values ++ [v] ++ vs) := by
      rw [evalEach]
      simp only [bind_assoc, pure_bind, List.append_assoc, List.singleton_append]
    rw [hcons]
    refine hR.head .item trivial (hR.trans (ihe _ s) (hR.task rfl (fun _ _ => trivial) fun v t => ?_))
    exact hR.head .taken trivial (ihes use _ k t)
  case slot =>
    intro budget target value rest ihv ihr body hbody k s
    -- the body comes after the last slot, so it moves into what follows the first
    rw [evalBindings, bind_assoc]
    refine hR.head .slot trivial (rel_after hR.refl fun name t => ?_)
    rw [bind_assoc]
    refine hR.trans (ihv _ t) (hR.task rfl (fun _ _ => trivial) fun v u => hR.head .bound trivial ?_)
    exact ihr body hbody k _
  case done =>
    intro budget slots hlen body hbody k s
    rw [evalBindings_done host src budget hlen, pure_bind]
    exact hR.head (.body hlen) trivial (hbody k s)

end

/-! ## Evaluations are runs -/

theorem closed_runs (host : Host) (src : Source) : Closed host src (Runs host src) where
  refl _ := .refl
  trans := .trans
  step h _ := .single h
  define span head target value ih budget k s := by
    rw [eval]
    refine .head .define (rel_after (fun _ => .refl) fun left t => rel_after (fun _ => .refl) fun name u => ?_)
    refine (ih left _ u).trans (rel_task (fun _ _ => .single (.stopped rfl)) fun v u' => ?_)
    exact .head .defined (rel_after (fun _ => .refl) fun _ _ => .refl)

theorem runs_eval (host : Host) (src : Source) (budget : Nat) (e : Expr) (k : List Task) (s : Session) :
    Runs host src ⟨.expr budget e, k, s⟩ (outcome (eval host src budget e) k s) :=
  (closed_runs host src).evaluators.1 budget e k s

/-- All that a run from an expression comes by is on the way to the outcome of its evaluation. -/
theorem runs_to_outcome {budget : Nat} {e : Expr} (h : Runs host src ⟨.expr budget e, [], s⟩ c) :
    Runs host src c (outcome (eval host src budget e) [] s) :=
  runs_to_final (fun _ => not_step_done) (runs_eval host src budget e [] s) h

end LineLisp.Eval
