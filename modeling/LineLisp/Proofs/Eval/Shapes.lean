/-
  LineLisp.Proofs.Eval.Shapes — the shapes that evaluation tells apart, and induction
  over them.

  A round group that is no form and no call is refused for its shape alone
  (`eval_refused`); `refusal?` says with which error. So an induction over evaluation
  has one case for all refused shapes and one for each other (`eval_induction`).
-/

import Mathlib.Data.List.Basic
import LineLisp.Eval

namespace LineLisp.Eval

/-- The span to blame and the cause, if a round group of these items has no value
    whatever its items are. -/
def refusal? (span : Span) : List Expr → Option (Span × EvalCause)
  | [] => some (span, .emptyList)
  | .atom _ (.operator .define) :: args => if args.length = 2 then none else some (span, .defineShape)
  | .atom _ (.operator .choose) :: args => if args.length = 3 then none else some (span, .chooseShape)
  | .atom _ (.operator .bind) :: args =>
    match args with
    | [.group _ _ slots, _] => if slots.length % 2 = 0 then none else some (span, .oddBindings)
    | [_, _] => some (span, .bindingsShape)
    | _ => some (span, .bindShape)
  | .atom _ (.symbol _) :: _ => none
  | head :: _ => some (head.span, .notASymbol)

/-- What keeps a refused group from being any form or call. -/
inductive Refused (span : Span) : List Expr → Span → EvalCause → Prop
  | emptyList : Refused span [] span .emptyList
  | define {head : Span} {args : List Expr} : (∀ target value, args = [target, value] → False) →
      Refused span (.atom head (.operator .define) :: args) span .defineShape
  | choose {head : Span} {args : List Expr} : (∀ condition yes no, args = [condition, yes, no] → False) →
      Refused span (.atom head (.operator .choose) :: args) span .chooseShape
  | oddBindings {head at_ : Span} {b : Bracket} {slots : List Expr} {body : Expr} : ¬ slots.length % 2 = 0 →
      Refused span [.atom head (.operator .bind), .group at_ b slots, body] span .oddBindings
  | bindings {head : Span} {bindings body : Expr} : (∀ at_ b slots, bindings = .group at_ b slots → False) →
      Refused span [.atom head (.operator .bind), bindings, body] span .bindingsShape
  | bind {head : Span} {args : List Expr} : (∀ at_ b slots body, args = [.group at_ b slots, body] → False) →
      (∀ bindings body, args = [bindings, body] → False) →
      Refused span (.atom head (.operator .bind) :: args) span .bindShape
  | head {head : Expr} {rest : List Expr} : (∀ at_, head = .atom at_ (.operator .define) → False) →
      (∀ at_, head = .atom at_ (.operator .choose) → False) → (∀ at_, head = .atom at_ (.operator .bind) → False) →
      (∀ at_ name, head = .atom at_ (.symbol name) → False) → Refused span (head :: rest) head.span .notASymbol

theorem refused_of_refusal? {span blamed : Span} {items : List Expr} {cause : EvalCause}
    (h : refusal? span items = some (blamed, cause)) : Refused span items blamed cause := by
  unfold refusal? at h
  split at h
  · cases h; exact .emptyList
  · split at h
    · cases h
    · cases h; exact .define fun target value hargs => by subst hargs; contradiction
  · split at h
    · cases h
    · cases h; exact .choose fun condition yes no hargs => by subst hargs; contradiction
  · split at h
    · split at h
      · cases h
      · cases h; exact .oddBindings ‹_›
    · cases h; exact .bindings ‹_›
    · cases h; exact .bind ‹_› ‹_›
  · cases h
  · cases h; exact .head ‹_› ‹_› ‹_› ‹_›

theorem eval_refused (host : Host) (src : Source) (budget : Nat) {span blamed : Span} {items : List Expr}
    {cause : EvalCause} (h : refusal? span items = some (blamed, cause)) :
    eval host src budget (.group span .round items) = fail blamed cause := by
  cases refused_of_refusal? h with
  | oddBindings hodd => rw [eval, if_neg hodd]
  | _ => rw [eval] <;> assumption

/-- What is no symbol names nothing. -/
theorem nameOf_cases (e : Expr) :
    (∃ span name, e = .atom span (.symbol name)) ∨ nameOf e = fail e.span .notASymbol := by
  unfold nameOf
  split
  · exact Or.inl ⟨_, _, rfl⟩
  · exact Or.inr rfl

/-- Fewer than two slots hold no pair. -/
theorem not_pair {α : Type} {slots : List α} (h : slots.length < 2) (target value : α) (rest : List α) :
    slots = target :: value :: rest → False := by
  rintro rfl
  simp only [List.length_cons] at h
  omega

theorem evalBindings_done (host : Host) (src : Source) (budget : Nat) {slots : List Expr}
    (h : slots.length < 2) : evalBindings host src budget slots = pure () := by
  rw [evalBindings]
  exact not_pair h

/-- Induction along evaluation: `P` of expressions, `Q` of the items of a vector and
    the arguments of a call, `B` of the slots of a `let`. -/
theorem eval_induction {P : Nat → Expr → Prop} {Q B : Nat → List Expr → Prop}
    (atom : ∀ budget span a, P budget (.atom span a))
    (vector : ∀ budget span items, (∀ b, Q b items) → P budget (.group span .square items))
    (refused : ∀ budget span items blamed cause, refusal? span items = some (blamed, cause) →
      P budget (.group span .round items))
    (define : ∀ budget span head target value, (∀ b, P b value) →
      P budget (.group span .round [.atom head (.operator .define), target, value]))
    (choose : ∀ budget span head condition yes no, (∀ b, P b condition) → (∀ b, P b yes) → (∀ b, P b no) →
      P budget (.group span .round [.atom head (.operator .choose), condition, yes, no]))
    (bind : ∀ budget span head at_ b slots body, slots.length % 2 = 0 → (∀ b, B b slots) → (∀ b, P b body) →
      P budget (.group span .round [.atom head (.operator .bind), .group at_ b slots, body]))
    (call : ∀ budget span head name args, (∀ b, Q b args) →
      P budget (.group span .round (.atom head (.symbol name) :: args)))
    (nil : ∀ budget, Q budget [])
    (cons : ∀ budget e es, P budget e → Q budget es → Q budget (e :: es))
    (slot : ∀ budget target value rest, P budget value → B budget rest → B budget (target :: value :: rest))
    (done : ∀ budget slots, slots.length < 2 → B budget slots) :
    (∀ budget e, P budget e) ∧ (∀ budget es, Q budget es) ∧ ∀ budget slots, B budget slots := by
  have h := eval.mutual_induct P B Q atom vector ?emptyList define ?defineShape choose ?chooseShape bind
    ?oddBindings ?bindingsShape ?bindShape call ?notASymbol slot ?done nil cons
  · exact ⟨h.1, h.2.2, h.2.1⟩
  case emptyList => exact fun budget span => refused budget span [] span .emptyList rfl
  case defineShape =>
    intro budget span head args hne
    refine refused budget span _ span .defineShape (if_neg fun hl => ?_)
    obtain ⟨a, b, rfl⟩ := List.length_eq_two.mp hl
    exact hne a b rfl
  case chooseShape =>
    intro budget span head args hne
    refine refused budget span _ span .chooseShape (if_neg fun hl => ?_)
    obtain ⟨a, b, c, rfl⟩ := List.length_eq_three.mp hl
    exact hne a b c rfl
  case oddBindings =>
    exact fun budget span head at_ b slots body hodd => refused budget span _ span .oddBindings (if_neg hodd)
  case bindingsShape =>
    intro budget span head bindings body hne
    refine refused budget span _ span .bindingsShape ?_
    cases bindings with
    | atom at_ a => rfl
    | group at_ b slots => exact absurd rfl (hne at_ b slots)
  case bindShape =>
    intro budget span head args _ hne
    refine refused budget span _ span .bindShape ?_
    rcases args with _ | ⟨a, _ | ⟨b, _ | ⟨c, rest⟩⟩⟩
    · rfl
    · simp only [refusal?]
    · exact absurd rfl (hne a b)
    · simp only [refusal?]
  case notASymbol =>
    intro budget span head rest hd hc hb hs
    refine refused budget span _ head.span .notASymbol ?_
    cases head with
    | group at_ b items => rfl
    | atom at_ a =>
      cases a with
      | symbol name => exact absurd rfl (hs at_ name)
      | operator op =>
        cases op with
        | define => exact absurd rfl (hd at_)
        | choose => exact absurd rfl (hc at_)
        | bind => exact absurd rfl (hb at_)
      | _ => rfl
  case done =>
    intro slots budget hne
    refine done budget slots ?_
    rcases slots with _ | ⟨a, _ | ⟨b, rest⟩⟩
    · simp
    · simp
    · exact absurd rfl (hne a b rest)

end LineLisp.Eval
