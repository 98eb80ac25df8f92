/-
  LineLisp.Proofs.Session.Invariant — properties that a session keeps, line after line.

  Properties are kept by a line (`Properties.KeptBy`) if evaluating what it is read as
  keeps them and reading it does too. Then the line leaves a session that has them,
  whatever the answer, and its value or its error has them as well (`run_keeps`). So a
  session that starts with them has them after all lines that keep them
  (`answers_keeps`).
-/

import LineLisp.Proofs.Eval.Invariant
import LineLisp.Proofs.Session.Answers

namespace LineLisp

variable {P : Properties} {host : Host} {src : Source} {s : Session}

/-- Reading and evaluating the line keeps the properties. A line without stack for the record of
    a name leaves a table in between, so what holds of a table holds of those it has grown from. -/
structure Properties.KeptBy (P : Properties) (host : Host) (src : Source) : Prop extends Eval.Kept P host src where
  read : ∀ {names : NameTable}, P.names names → P.names (src.read names).2
  shrink : ∀ {names names' : NameTable}, names.Grows names' → P.names names' → P.names names
  expr : ∀ {names : NameTable} {e : Expr}, (src.read names).1 = .ok e → P.expr e

namespace Session

/-- A session at its start has properties that the built-ins and their names have. -/
theorem fresh_has (hempty : P.names .empty)
    (hnames : ∀ (b : Builtin) (names : NameTable), P.names names → P.names (names.intern (.ofString b.name)).2)
    (hvalue : ∀ b, P.value (.function (.builtin b))) : fresh.Has P := by
  have hall : ∀ (bs : List Builtin) (s : Session), s.Has P → (bs.foldl register s).Has P := by
    intro bs
    induction bs with
    | nil => exact fun s hs => hs
    | cons b bs ih =>
      intro s hs
      have hs' : (s.intern (.ofString b.name)).2.Has P := hs.setNames (hnames b s.names hs.names)
      exact ih _ (hs'.bind _ (hvalue b))
  exact hall Builtin.all empty ⟨fun v hv => (nomatch hv), hempty⟩

theorem refuse_keeps (hs : s.Has P) (src : Source) (f : Failure) : (s.refuse src f).2.Has P := by
  cases f with
  | read e | eval e => exact hs.note _
  | fault f => exact hs

theorem readIn_keeps (hP : P.KeptBy host src) (hs : s.Has P) : (s.readIn host src).2.Has P := by
  have hread := hP.read hs.names
  rcases readIn_cases host s src with h | ⟨names, more, h⟩
  · rw [h]
    exact hs.setNames hread
  · have hmore := hP.shrink h.rest hread
    rw [h.readIn]
    exact (hs.setNames (hP.shrink h.name hmore)).setTable hmore

/-- What is wrong with a line that is not read is no error of evaluation. -/
theorem readIn_ne_eval (e : EvalError) : (s.readIn host src).1 ≠ .error (.eval e) := by
  intro h
  rcases readIn_cases host s src with hread | ⟨names, more, hunrecorded⟩
  · rw [hread] at h
    obtain ⟨failure, -, hf⟩ := exists_failure_of_read h
    cases failure <;> cases hf
  · rw [hunrecorded.readIn] at h
    cases h

theorem run_keeps (hP : P.KeptBy host src) (hs : s.Has P) :
    (s.run host src).2.Has P ∧ (∀ v, (s.run host src).1 = .ok v → P.value v) ∧
      ∀ e, (s.run host src).1 = .error (.eval e) → P.stop (.error e) := by
  have hread := readIn_keeps hP hs
  cases hx : (s.readIn host src).1 with
  | error f =>
    rw [run_of_readIn_error hx]
    exact ⟨hread, fun v hv => (by cases hv), fun e he => by cases he; exact absurd hx (readIn_ne_eval e)⟩
  | ok e =>
    rw [run_of_readIn hx]
    have hexpr : P.expr e := by
      rw [readIn_of_ok hx] at hx
      obtain ⟨names, he⟩ := exists_read_of_read hx
      exact hP.expr (congrArg Prod.fst he)
    generalize (s.readIn host src).2 = t at hread
    obtain ⟨hleft, hvalue, hstop⟩ := Eval.keeps_eval hP.toKept stackBudget hexpr t hread
    simp only [eval]
    generalize Eval.eval host src stackBudget e t = y at hleft hvalue hstop
    obtain ⟨stop | v, u⟩ := y
    · refine ⟨hleft, fun v hv => (by cases hv), fun error herror => ?_⟩
      cases stop with
      | error _ => cases herror; exact hstop _ rfl
      | exhausted => cases herror; exact hP.stop fun _ _ h => by cases h
      | fault _ => cases herror
    · exact ⟨hleft, fun w hw => by cases hw; exact hvalue v rfl, fun error herror => by cases herror⟩

theorem answer_keeps {line : List Char} (hP : P.KeptBy host ⟨line, 0⟩) (hs : s.Has P) : (s.answer host .eval line).2.Has P := by
  obtain ⟨hrun, -, -⟩ := run_keeps hP hs
  simp only [answer]
  generalize s.run host ⟨line, 0⟩ = x at hrun
  obtain ⟨f | v, t⟩ := x
  · exact refuse_keeps hrun _ f
  · exact hrun

theorem answers_keeps {lines : List (List Char)} (hP : ∀ line ∈ lines, P.KeptBy host ⟨line, 0⟩) (hs : s.Has P) :
    (s.answers host .eval lines).2.Has P := by
  induction lines generalizing s with
  | nil => exact hs
  | cons line lines ih =>
    obtain ⟨hline, hlines⟩ := List.forall_mem_cons.mp hP
    exact ih hlines (answer_keeps hline hs)

end Session

end LineLisp
