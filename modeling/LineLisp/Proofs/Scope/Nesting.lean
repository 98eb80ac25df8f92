/-
  LineLisp.Proofs.Scope.Nesting — a `let` is the nesting of its parts.

  With one map a `let` in the body of another adds nothing: a copy of a copy is thrown
  away with the copy (`privately_privately`), and bindings are made one after another
  however they are parted (`evalBindings_append`). Evaluation with frames has the outcome
  of evaluation with one map, so there too the bindings of a `let` can be cut in two
  anywhere between pairs (`let_eq_nested`). Only the stack tells the difference: the inner
  `let` takes its own cost.
-/

import Mathlib.Data.List.Induction
import LineLisp.Proofs.Eval.Budget
import LineLisp.Proofs.Scope.Refinement

namespace LineLisp

/-- The form `(let [slots] body)`, with its spans and either kind of bracket. -/
def Expr.letForm (span head at_ : Span) (b : Bracket) (slots : List Expr) (body : Expr) : Expr :=
  .group span .round [.atom head (.operator .bind), .group at_ b slots, body]

namespace Scope

open Eval (bind_run)

variable (host : Host) (src : Source) (budget : Nat)

theorem evalBindings_append {first : List Expr} (h : first.length % 2 = 0) (second : List Expr) :
    evalBindings host src budget (first ++ second)
      = evalBindings host src budget first >>= fun _ => evalBindings host src budget second := by
  induction first using List.twoStepInduction with
  | nil =>
    have hnone : evalBindings host src budget [] = pure () := evalBindings_done host src budget (by simp)
    rw [List.nil_append, hnone, pure_bind]
  | singleton a => simp at h
  | cons_cons target value rest ih _ =>
    have hrest : rest.length % 2 = 0 := by
      simp only [List.length_cons] at h
      omega
    rw [List.cons_append, List.cons_append, evalBindings, evalBindings]
    simp only [ih hrest, bind_assoc]

/-- A copy that is thrown away at the end of another copy might as well be that one. -/
theorem privately_privately {α β : Type} (m : ScopeM α) (p : α → ScopeM β) :
    privately (m >>= fun a => privately (p a)) = privately (m >>= p) := by
  funext s
  simp only [privately, bind_run]
  rcases m s with ⟨_ | a, t⟩ <;> rfl

/-- The parts of a `let`, each in its own copy, come to the whole. -/
theorem privately_bindings_append {first : List Expr} (h : first.length % 2 = 0) (second : List Expr) (body : Expr) :
    privately (do
        evalBindings host src budget first
        privately do
          evalBindings host src budget second
          eval host src budget body)
      = privately (do
          evalBindings host src budget (first ++ second)
          eval host src budget body) := by
  rw [privately_privately, evalBindings_append host src budget h, bind_assoc]

end Scope

namespace Eval

open Scope (Refines SameEnd room)

variable {host : Host} {src : Source} {budget : Nat}

/-- What a `let` does once its cost is paid. -/
def letBody (host : Host) (src : Source) (budget : Nat) (slots : List Expr) (body : EvalM Value) : EvalM Value :=
  inFrame host budget do
    evalBindings host src budget slots
    body

theorem eval_letForm {span head at_ : Span} {b : Bracket} {slots : List Expr} {body : Expr} (h : slots.length % 2 = 0) :
    eval host src budget (.letForm span head at_ b slots body)
      = spend budget formCost >>= fun left => letBody host src left slots (eval host src left body) := by
  rw [Expr.letForm, eval, if_pos h]
  rfl

theorem eval_letForm_run {span head at_ : Span} {b : Bracket} {slots : List Expr} {body : Expr} {s : Session}
    (h : slots.length % 2 = 0) :
    eval host src budget (.letForm span head at_ b slots body) s
      = if budget < formCost then (.error .exhausted, s)
        else letBody host src (budget - formCost) slots (eval host src (budget - formCost) body) s := by
  rw [eval_letForm h, bind_run, spend_run]
  by_cases hcost : budget < formCost
  · rw [if_pos hcost, if_pos hcost]
  · rw [if_neg hcost, if_neg hcost]

section

variable (host src budget) {P : Name → Prop} {body : EvalM Value} (slots : List Expr)

theorem confined_scope (h : Confined host P body) :
    Confined host (fun _ => True) (do evalBindings host src budget slots; body) :=
  confined_bind ((confined_evaluators host src).2.2 budget slots) fun _ => h.mono fun _ _ => trivial

/-- Where there is stack for the record, one map does not notice the new frame. -/
theorem refines_letBody {p : ScopeM Value} (hcost : host.recordCost ≤ budget) (hc : Confined host P body)
    (h : Refines host body p) :
    Refines host (letBody host src budget slots body)
      (Scope.privately do Scope.evalBindings host src budget slots; p) := by
  have hroom : room host budget = pure () := if_neg (Nat.not_lt_of_le hcost)
  have hrefines := Scope.refines_inFrame budget
    (Scope.refines_bind ((Scope.refines_evaluators host src).2.2 budget slots) fun _ => h)
    (confined_scope host src budget slots hc)
  rwa [hroom, pure_bind] at hrefines

end

/-- Two actions that do the same with one map have the same outcome and leave the same names,
    unless the one of them runs out of stack. -/
theorem eq_of_refines {α : Type} {m m' : EvalM α} {p : ScopeM α} (h : Refines host m p) (h' : Refines host m' p)
    (s : Session) (hroom : ¬ Starved host (m' s).1) : (m s).1 = (m' s).1 ∧ (m s).2.names = (m' s).2.names := by
  have hend := h s
  have hend' := h' s
  generalize m s = x, m' s = x', p (Scope.ofSession s) = y at *
  cases hend' with
  | strayed hshort => exact absurd (Or.inr hshort) hroom
  | @same r t _ =>
    have hnames : t.names = (Scope.ofSession t).names := rfl
    generalize Scope.ofSession t = v at hend hnames
    cases hend with
    | same => exact ⟨rfl, hnames.symm⟩
    | strayed => exact absurd (Or.inl rfl) hroom

/-- The inner `let` may do without paying: then it does what it did, if it could pay. -/
theorem outlasts_nested (host : Host) (src : Source) (left : Nat) {inner head₂ at₂ : Span} {b₂ : Bracket}
    (first : List Expr) {second : List Expr} (hsecond : second.length % 2 = 0) (body : Expr) :
    Outlasts host (letBody host src left first (eval host src left (.letForm inner head₂ at₂ b₂ second body)))
      (letBody host src left first (letBody host src left second (eval host src left body))) := by
  obtain ⟨outlastsEval, -, outlastsBindings⟩ := outlasts_evaluators (.refl host) src
  obtain ⟨confinedEval, -, -⟩ := confined_evaluators host src
  refine .inFrame (.refl host) (Nat.le_refl left) (confined_scope host src left first (confinedEval left _)) (.bind (.refl _) fun _ => ?_)
  rw [eval_letForm hsecond]
  refine .of_spend formCost fun less hless => ?_
  refine .inFrame (.refl host) hless (confined_scope host src less second (confinedEval less body)) ?_
  exact .bind (outlastsBindings less second left hless) fun _ => outlastsEval less body left hless

/-- The bodies of a `let` and of its nesting, with the outer cost paid. -/
theorem letBody_eq_nested (host : Host) (src : Source) (left : Nat) {inner head₂ at₂ : Span} {b₂ : Bracket}
    {first second : List Expr} (body : Expr) (s : Session) (hfirst : first.length % 2 = 0)
    (hsecond : second.length % 2 = 0)
    (hroom : ¬ Starved host (letBody host src left first
      (eval host src left (.letForm inner head₂ at₂ b₂ second body)) s).1) :
    let whole := letBody host src left (first ++ second) (eval host src left body) s
    let nested := letBody host src left first (eval host src left (.letForm inner head₂ at₂ b₂ second body)) s
    whole.1 = nested.1 ∧ whole.2.frames = nested.2.frames ∧ whole.2.names = nested.2.names := by
  obtain ⟨confinedEval, -, -⟩ := confined_evaluators host src
  obtain ⟨refinesEval, -, -⟩ := Scope.refines_evaluators host src
  intro whole nested
  -- with the inner cost given back, both do the same with one map
  have hgiven : letBody host src left first (letBody host src left second (eval host src left body)) s = nested :=
    outlasts_nested host src left first hsecond body s hroom
  have hin : Confined host (fun _ => True) (letBody host src left second (eval host src left body)) :=
    confined_inFrame left (confined_scope host src left second (confinedEval left body))
  rw [show (letBody host src left first (eval host src left (.letForm inner head₂ at₂ b₂ second body)) s) = nested from rfl,
    ← hgiven] at hroom
  rw [← hgiven]
  obtain ⟨hcost, -, hframes⟩ := left_inFrame (confined_scope host src left first hin) s hroom
  have hparts := refines_letBody host src left first hcost hin
    (refines_letBody host src left second hcost (confinedEval left body) (refinesEval left body))
  rw [Scope.privately_bindings_append host src left hfirst] at hparts
  obtain ⟨hresult, hnames⟩ := eq_of_refines
    (refines_letBody host src left (first ++ second) hcost (confinedEval left body) (refinesEval left body)) hparts s hroom
  rw [← hresult] at hroom
  obtain ⟨-, -, hwhole⟩ :=
    left_inFrame (confined_scope host src left (first ++ second) (confinedEval left body)) s hroom
  exact ⟨hresult, hwhole.trans hframes.symm, hnames⟩

/-- A `let` whose bindings are cut in two between pairs, the second part in a `let` of its
    own around the body: unless that runs out of stack, for itself or for a record, the two
    have the same value or the same stop, and leave the same frames and the same names. -/
theorem let_eq_nested (host : Host) (src : Source) (budget : Nat)
    {span head at_ outer head₁ at₁ inner head₂ at₂ : Span} {b b₁ b₂ : Bracket} (first second : List Expr) (body : Expr)
    (s : Session) (hfirst : first.length % 2 = 0) (hsecond : second.length % 2 = 0) :
    let whole := eval host src budget (.letForm span head at_ b (first ++ second) body) s
    let nested := eval host src budget (.letForm outer head₁ at₁ b₁ first (.letForm inner head₂ at₂ b₂ second body)) s
    nested.1 ≠ .error .exhausted → ¬ RanShort host nested.1 →
      whole.1 = nested.1 ∧ whole.2.frames = nested.2.frames ∧ whole.2.names = nested.2.names := by
  intro whole nested hexhausted hshort
  have hroom : ¬ Starved host nested.1 := not_or.mpr ⟨hexhausted, hshort⟩
  have heven : (first ++ second).length % 2 = 0 := by
    rw [List.length_append]
    omega
  simp only [nested, whole, eval_letForm_run hfirst, eval_letForm_run heven] at hroom ⊢
  by_cases hcost : budget < formCost
  · rw [if_pos hcost] at hroom
    exact absurd (Or.inl rfl) hroom
  · rw [if_neg hcost] at hroom
    rw [if_neg hcost, if_neg hcost]
    exact letBody_eq_nested host src (budget - formCost) body s hfirst hsecond hroom

/-- With one name bound, redefined by a value and bound again, the body sees the last. -/
theorem let_eq_nested_rebound :
    let src : Source := ⟨"(let [x 1 x (def x 2)] x)".toList, 0⟩
    let x (at_ : Int) : Expr := .atom (.ofLength at_ 1) (.symbol 0)
    let two : Expr := .atom (.ofLength 19 1) (.integer 2)
    let define : Expr := .group (.ofLength 12 9) .round [.atom (.ofLength 13 3) (.operator .define), x 17, two]
    let first : List Expr := [x 6, .atom (.ofLength 8 1) (.integer 1)]
    let second : List Expr := [x 10, define]
    let whole := eval Hosts.none src 20
      (.letForm (.ofLength 0 25) (.ofLength 1 3) (.ofLength 5 17) .square (first ++ second) (x 23)) .empty
    let nested := eval Hosts.none src 20
      (.letForm (.ofLength 0 25) (.ofLength 1 3) (.ofLength 5 17) .square first
        (.letForm (.ofLength 0 25) (.ofLength 1 3) (.ofLength 5 17) .square second (x 23))) .empty
    nested.1 = .ok (.int 2) ∧
      whole.1 = nested.1 ∧ whole.2.frames = nested.2.frames ∧ whole.2.names = nested.2.names := by
  intro src x two define first second whole nested
  have hfirst : first.length % 2 = 0 := by simp [first]
  have hsecond : second.length % 2 = 0 := by simp [second]
  have hnested : nested.1 = .ok (.int 2) := by
    simp only [nested, eval_letForm hfirst, eval_letForm hsecond]
    rfl
  have hroom : nested.1 ≠ .error .exhausted := by
    rw [hnested]
    rintro ⟨⟩
  exact ⟨hnested, let_eq_nested Hosts.none src 20 first second (x 23) .empty hfirst hsecond hroom not_ranShort_quiet⟩

end Eval

end LineLisp
