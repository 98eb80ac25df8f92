/-
  LineLisp.Proofs.Spelled.Sessions — interning does not show.

  A fresh session and the fresh frames of the interpreter without names match, and
  every line leaves them matching, whatever it is answered with (`answer_matches`).
  So all answers are the same on either side. What is not on the other side cannot
  matter: the numbers that names got, and the names left behind by lines that could
  not be read.

  Texts need no records, so this is told where records take no stack. Elsewhere it holds of
  lines that have stack for theirs (`run_matches`, `Session.answers_of_roomy`): a name that
  an earlier line has left behind needs no record any more.
-/

import LineLisp.Proofs.Session.Answers
import LineLisp.Proofs.Spelled.Reading
import LineLisp.Proofs.Spelled.Refinement

namespace LineLisp.Spelled

variable {t : NameTable} {s : Session} {r : Frames}

/-! ## The start -/

theorem register_matches (h : Matches t s r) (b : Builtin) :
    Matches t (s.register b) (r.insert (.ofString b.name) (.function b)) := by
  have hgrow : s.names.Grows (s.names.intern (.ofString b.name)).2 := s.names.grows_intern _
  exact ⟨h.grows.trans hgrow, (h.frames.of_grows hgrow).insert (s.names.text?_intern _) rfl⟩

theorem fresh_matches : Matches .empty Session.fresh fresh := by
  have hempty : Matches .empty Session.empty (.ofFrame .empty) :=
    ⟨NameTable.empty.grows_refl, ⟨Frame.spells_empty _, List.Forall₂.nil⟩⟩
  unfold Session.fresh fresh
  generalize Session.empty = s, FrameStack.ofFrame Frame.empty = r at hempty ⊢
  induction Builtin.all generalizing s r with
  | nil => exact hempty
  | cons b bs ih => exact ih _ _ (register_matches hempty b)

/-! ## A line -/

theorem read_matches (hs : Matches t s r) (src : Source) :
    Matches s.names (s.read src).2 r ∧
      SameOutcome (fun e f => e.spelled? (s.read src).2.names = some f) (s.read src).1
        ((read src).mapError Failure.ofReadFailure) := by
  obtain ⟨hgrow, hout⟩ := src.read_spells s.names
  refine ⟨hs.setNames hgrow, ?_⟩
  show SameOutcome (fun e f => e.spelled? (src.read s.names).2 = some f)
    ((src.read s.names).1.mapError Failure.ofReadFailure) _
  generalize (src.read s.names).1 = x, read src = y at hout ⊢
  cases hout with
  | error e => exact SameOutcome.error _
  | ok h => exact SameOutcome.ok h

/-- An evaluation ends as with texts, or a record ran short of stack. -/
theorem evalLine_matches (host : Host) (hs : Matches t s r) (src : Source) {e : LineLisp.Expr} {f : Expr}
    (he : e.spelled? s.names = some f) :
    (Matches s.names (s.eval host src e).2 (evalLine r src f).2 ∧
      SameOutcome (SameValue (s.eval host src e).2.names) (s.eval host src e).1 (evalLine r src f).1) ∨
    Eval.RanShort host (Eval.eval host src Session.stackBudget e s).1 ∧ ∃ r', Matches s.names (s.eval host src e).2 r' := by
  have hend := (refines_evaluators host src).1 Session.stackBudget e s.names f he s r hs.refl
  simp only [Session.eval, evalLine, LineLisp.Expr.span_of_spelled? he]
  generalize Eval.eval host src Session.stackBudget e s = x, eval src Session.stackBudget f r = y at hend
  cases hend with
  | short hshort hleft => exact Or.inr ⟨hshort, _, hleft⟩
  | same hleft hout =>
    cases hout with
    | error stop => exact Or.inl ⟨hleft, .error _⟩
    | ok h => exact Or.inl ⟨hleft, .ok h⟩

/-- A line ends as with texts, or it ran short of stack. -/
theorem run_matches (host : Host) (hs : Matches t s r) (src : Source) :
    (Matches s.names (s.run host src).2 (run r src).2 ∧
      SameOutcome (SameValue (s.run host src).2.names) (s.run host src).1 (run r src).1) ∨
    s.RanShort host src ∧ ∃ r', Matches s.names (s.run host src).2 r' := by
  rcases Session.readIn_cases host s src with hread | ⟨names, more, h⟩
  · obtain ⟨hleft, hout⟩ := read_matches hs src
    rw [← hread] at hleft hout
    unfold run
    generalize read src = y at hout
    cases y with
    | error failure =>
      generalize hx : (s.readIn host src).1 = x at hout
      cases hout
      rw [Session.run_of_readIn_error hx]
      exact Or.inl ⟨hleft, .error _⟩
    | ok f =>
      generalize hx : (s.readIn host src).1 = x at hout
      cases hout with
      | ok he =>
        rw [Session.run_of_readIn hx]
        rcases evalLine_matches host hleft src he with ⟨hleft', hout'⟩ | ⟨hshort, r', hleft'⟩
        · exact Or.inl ⟨hleft.trans hleft', hout'⟩
        · exact Or.inr ⟨Session.ranShort_of_eval hx hshort, r', hleft.trans hleft'⟩
  · rw [h.run]
    refine Or.inr ⟨h.ranShort, r, ?_⟩
    exact (hs.setNames h.earlier).trans ⟨h.name, hs.frames.of_grows (h.earlier.trans h.name)⟩

end LineLisp.Spelled
