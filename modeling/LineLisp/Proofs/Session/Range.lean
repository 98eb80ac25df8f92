/-
  LineLisp.Proofs.Session.Range — in a session of lines no integer leaves the range of a
  word.

  A configuration is in the range if all its values are: those at hand, those that tasks
  keep and those that frames bind; and if the literals are that are still to be evaluated.
  That is a property that every step keeps (`kept_inRange`), hence so are all points of an
  evaluation that starts in the range (`Runs.inRange`). A line is read with literals in the
  range only (`literals_inRange`), so every line keeps what the frames bind there
  (`Properties.keptBy_inRange`). So it holds of all values after any lines, and of all
  values at every point of an evaluation (`integers_stay_in_range`).
-/

import LineLisp.Proofs.Expr.Spans
import LineLisp.Proofs.Function.Range
import LineLisp.Proofs.Session.Invariant

namespace LineLisp

/-! ## Values and literals in the range -/

def Session.InRange (s : Session) : Prop := ∀ v ∈ s.frames.values, v.InRange

/-- The integers that an expression is written with are in the range. -/
def Expr.InRange (e : Expr) : Prop := ∀ span n, .atom span (.integer n) ∈ e.nodes → InWord n

theorem Expr.InRange.item {span : Span} {b : Bracket} {items : List Expr} (h : (group span b items).InRange) {e : Expr}
    (he : e ∈ items) : e.InRange := by
  intro at_ n hn
  exact h at_ n (List.mem_cons_of_mem _ (mem_nodesEach he hn))

/-- Values and literals in the range. -/
def Properties.inRange : Properties := ⟨Value.InRange, Expr.InRange, fun _ => True, fun _ => True⟩

theorem Session.has_inRange {s : Session} : s.Has .inRange ↔ s.InRange := ⟨fun h => h.values, fun h => ⟨h, trivial⟩⟩

namespace Eval

/-! ### Configurations -/

structure Focus.InRange (f : Focus) : Prop where
  values : ∀ v ∈ f.values, v.InRange
  exprs : ∀ e ∈ f.exprs, e.InRange

structure Task.InRange (t : Task) : Prop where
  values : ∀ v ∈ t.values, v.InRange
  exprs : ∀ e ∈ t.exprs, e.InRange

structure Config.InRange (c : Config) : Prop where
  focus : c.focus.InRange
  tasks : ∀ t ∈ c.tasks, t.InRange
  session : c.session.InRange

theorem Config.has_inRange {c : Config} : c.Has .inRange ↔ c.InRange := by
  constructor
  · intro h
    exact ⟨⟨h.focus.values, h.focus.exprs⟩, fun t ht => ⟨(h.tasks t ht).values, (h.tasks t ht).exprs⟩, h.session.values⟩
  · intro h
    refine ⟨⟨h.focus.values, h.focus.exprs, fun _ _ => trivial⟩, fun t ht => ?_, Session.has_inRange.mpr h.session⟩
    exact ⟨(h.tasks t ht).values, (h.tasks t ht).exprs⟩

theorem Config.InRange.mem_values {c : Config} (h : c.InRange) {v : Value} (hv : v ∈ c.values) : v.InRange :=
  (has_inRange.mpr h).mem_values hv

theorem expr_inRange {budget : Nat} {e : Expr} (he : e.InRange) : (Focus.expr budget e).InRange :=
  ⟨fun _ hv => (nomatch hv), List.forall_mem_singleton.mpr he⟩

/-! ### Evaluation -/

variable {host : Host} {src : Source}

theorem evalAtom_inRange {span : Span} {a : Atom} {s : Session} {v : Value} (ha : (Expr.atom span a).InRange)
    (hliteral : ∀ name, a ≠ .symbol name) (h : (evalAtom src span a s).1 = .ok v) : v.InRange := by
  cases a with
  | integer n =>
    cases h
    exact Value.inRange_int.mpr (ha span n List.mem_cons_self)
  | symbol name => exact absurd rfl (hliteral name)
  | string =>
    simp only [evalAtom] at h
    generalize Span.of? (span.lo + 1) (span.hi - 1) = inner at h
    cases inner <;> cases h
    exact Value.inRange_of_integers_eq_nil rfl
  | bool b | keyword name | nil => cases h; exact Value.inRange_of_integers_eq_nil rfl
  | operator op | unknown kind => cases h

theorem kept_inRange (hh : host.functions.InRange) : Kept .inRange host src where
  item h he := Expr.InRange.item h he
  atom := evalAtom_inRange
  vector := Value.inRange_vector.mpr
  call f budget names _ _ h := ⟨f.call_inRange hh budget names h, trivial⟩
  stop _ := trivial

/-- Every point of an evaluation has all its values in the range. -/
theorem Runs.inRange (hh : host.functions.InRange) {c d : Config} (h : Runs host src c d) (hc : c.InRange) : d.InRange :=
  Config.has_inRange.mp (Runs.keeps (kept_inRange hh) h (Config.has_inRange.mpr hc))

end Eval

/-! ## Literals -/

theorem Source.literals_inRange {src : Source} {names names' : NameTable} {e : Expr}
    (h : src.read names = (.ok e, names')) : e.InRange :=
  fun _ _ hn => (written_of_atom h hn rfl).of_integer

/-! ## Lines -/

theorem Properties.keptBy_inRange {host : Host} (hh : host.functions.InRange) (src : Source) :
    Properties.inRange.KeptBy host src where
  toKept := Eval.kept_inRange hh
  read _ := trivial
  shrink _ _ := trivial
  expr h := Source.literals_inRange (Prod.ext h rfl)

namespace Session

variable {host : Host} {s : Session}

theorem fresh_inRange : fresh.InRange :=
  (fresh_has (P := .inRange) trivial (fun _ _ _ => trivial) fun _ => Value.inRange_of_integers_eq_nil rfl).values

theorem inRange_of_read {src : Source} {e : Expr} (h : (s.readIn host src).1 = .ok e) : e.InRange := by
  rw [readIn_of_ok h] at h
  obtain ⟨names, hread⟩ := exists_read_of_read h
  exact Source.literals_inRange hread

theorem run_inRange (hh : host.functions.InRange) (hs : s.InRange) (src : Source) :
    (s.run host src).2.InRange ∧ ∀ v, (s.run host src).1 = .ok v → v.InRange := by
  obtain ⟨hleft, hvalue, -⟩ := run_keeps (Properties.keptBy_inRange hh src) (has_inRange.mpr hs)
  exact ⟨hleft.values, hvalue⟩

theorem answers_inRange (hh : host.functions.InRange) (hs : s.InRange) (lines : List (List Char)) :
    (s.answers host .eval lines).2.InRange :=
  (answers_keeps (fun _ _ => Properties.keptBy_inRange hh _) (has_inRange.mpr hs)).values

/-- In every session of lines and for every next line, all integers are in the range of a
    word: those that the frames bind before the line and after it, those in its value,
    and, whatever it is read as, those in a value at hand and in a frame at every point of
    its evaluation, however that ends and whatever a record costs. -/
theorem integers_stay_in_range (recordCost : Nat) (lines : List (List Char)) (src : Source) :
    let host : Host := ⟨Hosts.none, recordCost⟩
    let s := (fresh.answers host .eval lines).2
    (∀ v ∈ s.frames.values, v.InRange) ∧ (∀ v ∈ (s.run host src).2.frames.values, v.InRange) ∧
      (∀ v, (s.run host src).1 = .ok v → v.InRange) ∧
      ∀ e, (s.readIn host src).1 = .ok e → ∀ c, Eval.Runs host src ⟨.expr stackBudget e, [], (s.readIn host src).2⟩ c →
        (∀ v ∈ c.values, v.InRange) ∧
          Eval.Runs host src c (Eval.outcome (Eval.eval host src stackBudget e) [] (s.readIn host src).2) := by
  intro host s
  have hh : host.functions.InRange := Hosts.none_inRange
  have hs : s.InRange := answers_inRange hh fresh_inRange lines
  obtain ⟨hleft, hvalue⟩ := run_inRange hh hs src
  refine ⟨hs, hleft, hvalue, fun e he c hrun => ⟨fun v hv => ?_, Eval.runs_to_outcome hrun⟩⟩
  have hread : (s.readIn host src).2.InRange :=
    (readIn_keeps (Properties.keptBy_inRange hh src) (has_inRange.mpr hs)).values
  have hstart : (Eval.Config.mk (.expr stackBudget e) [] (s.readIn host src).2).InRange :=
    ⟨Eval.expr_inRange (inRange_of_read he), fun t ht => (nomatch ht), hread⟩
  exact (Eval.Runs.inRange hh hrun hstart).mem_values hv

end Session

end LineLisp
