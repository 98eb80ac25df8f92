/-
  LineLisp.Proofs.Session.Canonical — a line and its canonical text mean the same.

  The canonical text is read as the same tree with the same names, and evaluation looks
  at the texts of atoms and not at their positions. So in any session that only answered
  lines, a line and its canonical text have the same value and leave the same session;
  or they have the same error at corresponding nodes
  (`canonical_means_the_same`).
-/

import LineLisp.Proofs.Eval.Positions
import LineLisp.Proofs.Expr.RoundTrip
import LineLisp.Proofs.Session.Faults

namespace LineLisp

/-- The same value, or errors of the same kind in the same words at nodes that have the
    same place in the two expressions. -/
inductive SameMeaning (e e' : Expr) : Except Failure Value → Except Failure Value → Prop
  | value (v : Value) : SameMeaning e e' (.ok v) (.ok v)
  | error {x x' : EvalError} : x'.kind = x.kind → x'.message = x.message → e.SamePlace e' x.span x'.span →
      SameMeaning e e' (.error (.eval x)) (.error (.eval x'))

namespace Session

variable {s : Session} {src src' : Source} {names : NameTable} {e e' : Expr}

/-- Two evaluations of the same tree, of which one has no fault. -/
theorem eval_of_sameTree (hosts : Hosts) (htree : e.SameTree src src' e')
    (hfree : ∀ f, (s.eval hosts src e).1 ≠ .error (.fault f)) :
    SameMeaning e e' (s.eval hosts src e).1 (s.eval hosts src' e').1 ∧
      (s.eval hosts src' e').2 = (s.eval hosts src e).2 := by
  have hplaced := htree.at_places (S := e.SamePlace e') fun p hp => ⟨p, hp, rfl, rfl⟩
  -- no fault is met, so any fault may correspond to any other
  obtain ⟨hsession, hresult⟩ := (Eval.agree_evaluators (fun _ _ h => h) (fun _ _ h => h.2) (F := fun _ _ => True)
    (fun _ => trivial) (R := fun _ => True) (fun _ _ _ _ _ => trivial) hosts).1 stackBudget e (fun _ _ => trivial) e'
    hplaced s
  unfold eval at hfree ⊢
  generalize Eval.eval hosts src stackBudget e s = x, Eval.eval hosts src' stackBudget e' s = x' at hsession hresult hfree ⊢
  obtain ⟨x, t⟩ := x
  obtain ⟨x', t'⟩ := x'
  refine ⟨?_, hsession⟩
  cases hresult with
  | ok v => exact .value v
  | error hstop =>
    cases hstop with
    | error cause hplace => exact .error rfl rfl hplace
    | exhausted => exact .error rfl rfl (Expr.samePlace_root e e')
    | @fault f _ _ => exact absurd rfl (hfree f)

/-- In every session of lines and for every line that is read as an expression, the
    canonical text of that expression is read as the same tree from the same session;
    evaluating either gives the same value, or errors that differ in their spans only and
    blame nodes at the same place; and both leave the same session. Spans tell the nodes
    of either expression apart. -/
theorem canonical_means_the_same (hosts : Hosts) (lines : List (List Char)) (src : Source) (e : Expr)
    (h : ((fresh.answers hosts .eval lines).2.read src).1 = .ok e) :
    let s := (fresh.answers hosts .eval lines).2
    ∃ e', s.read (src.canonical e) = (.ok e', (s.read src).2) ∧
      SameMeaning e e' (s.run hosts src).1 (s.run hosts (src.canonical e)).1 ∧
      (s.run hosts (src.canonical e)).2 = (s.run hosts src).2 ∧
      e.SameTree src (src.canonical e) e' ∧ (e.nodes.map Expr.span).Nodup ∧ (e'.nodes.map Expr.span).Nodup := by
  intro s
  have hs : s.Own := own_fresh.answers hosts .eval lines
  obtain ⟨names, hread⟩ := exists_read_of_read h
  obtain ⟨e', hread', htree⟩ := Source.read_canonical hread
  have hsession := read_eq_of_read hread
  have hsession' := read_eq_of_read hread'
  have hrun : s.run hosts src = (s.setNames names).eval hosts src e := by
    rw [run_of_readIn (by rw [readIn_quiet, h]), readIn_quiet, hsession]
  have hrun' : s.run hosts (src.canonical e) = (s.setNames names).eval hosts (src.canonical e) e' := by
    rw [run_of_readIn (by rw [readIn_quiet, hsession']), readIn_quiet, hsession']
  have hfree : ∀ f, ((s.setNames names).eval hosts src e).1 ≠ .error (.fault f) := by
    intro f hf
    rw [← hrun] at hf
    rcases run_fault hs hf with hunread | ⟨-, hcost⟩
    · rw [readIn_quiet, h] at hunread
      cases hunread
    · exact absurd hcost (Nat.lt_irrefl 0)
  obtain ⟨hmeaning, hleft⟩ := eval_of_sameTree hosts htree hfree
  rw [hrun, hrun', hsession]
  exact ⟨e', hsession', hmeaning, hleft, htree, Source.nodup_spans_of_read hread, Source.nodup_spans_of_read hread'⟩

/-- After a definition, a line with one name bound and one not. -/
theorem canonical_means_the_same_after_definition :
    let s := (fresh.answers Hosts.none .eval ["(def x 2)".toList]).2
    let src : Source := ⟨"(+ x,y)".toList, 5⟩
    ∃ e e', (s.read src).1 = .ok e ∧ e.print src = "(+ x y)".toList ∧ (s.read (src.canonical e)).1 = .ok e' ∧
      SameMeaning e e' (s.run Hosts.none src).1 (s.run Hosts.none (src.canonical e)).1 := by
  intro s src
  have hprint : ((fresh.answers Hosts.none .eval ["(def x 2)".toList]).2.read ⟨"(+ x,y)".toList, 5⟩).1.toOption.map
      (·.print ⟨"(+ x,y)".toList, 5⟩) = some "(+ x y)".toList := by decide +kernel
  obtain ⟨e, he, hprint⟩ := Option.map_eq_some_iff.mp hprint
  have hread : (s.read src).1 = .ok e := Source.eq_ok_of_toOption he
  obtain ⟨e', hback, hmeaning, -⟩ := canonical_means_the_same Hosts.none ["(def x 2)".toList] src e hread
  exact ⟨e, e', hread, hprint, congrArg Prod.fst hback, hmeaning⟩

end Session

end LineLisp
