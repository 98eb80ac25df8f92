/-
  LineLisp.Proofs.Session.Moving — where a line starts moves its spans and does no more.

  A line that starts elsewhere is read as the same expression at moved places
  (`Source.read_move`), and evaluation looks at texts and not at positions
  (`Eval.agree_evaluators`). The one fault that names positions is that of a string without
  room for its quotes, and no string of a line is one (`Source.room_of_string`). So two
  starts of a line give the same values, sessions, causes of errors and faults, and spans
  that differ by the distance of the starts; and what is shown of them is the same text
  (`Session.start_only_moves_spans`).
-/

import LineLisp.Proofs.Eval.Positions
import LineLisp.Proofs.Expr.Moving
import LineLisp.Proofs.Session.Carets

namespace LineLisp

variable (d : Int)

/-! ## Errors -/

def EvalError.move (d : Int) (e : EvalError) : EvalError := ⟨e.span.move d, e.cause⟩

/-- An error has its span moved; what has no span stays as it is. -/
def Stop.move (d : Int) : Stop → Stop
  | error e => error (e.move d)
  | exhausted => exhausted
  | fault f => fault f

namespace Failure

/-- An error has its span moved; a fault stays as it is. -/
def move (d : Int) : Failure → Failure
  | read e => read (e.move d)
  | eval e => eval (e.move d)
  | fault f => fault f

theorem ofReadFailure_move (f : ReadFailure) : ofReadFailure (f.move d) = (ofReadFailure f).move d := by
  cases f <;> rfl

theorem ofStop_move (whole : Span) (stop : Stop) : ofStop (whole.move d) (stop.move d) = (ofStop whole stop).move d := by
  cases stop <;> rfl

end Failure

/-- The carets stand under the same characters. -/
theorem Diagnostic.render_move (kind : ErrorKind) (message : String) (span : Span) (src : Source) :
    (Diagnostic.mk kind message (span.move d)).render (src.move d) = (Diagnostic.mk kind message span).render src := by
  have hindent : (span.move d).lo - (src.move d).start = span.lo - src.start := by
    simp only [Span.move, Source.move]; omega
  have hcarets : (Diagnostic.mk kind message (span.move d)).carets (src.move d)
      = (Diagnostic.mk kind message span).carets src := by
    rw [carets, carets, hindent, Span.length_move]
  rw [render, render, hcarets]
  rfl

/-! ## Evaluation -/

/-- A string of a line has both its quotes. -/
theorem Source.room_of_string {src : Source} {names names' : NameTable} {e : Expr} (h : src.read names = (.ok e, names'))
    {span : Span} (hn : .atom span .string ∈ e.nodes) : span.lo + 1 ≤ span.hi - 1 := by
  obtain ⟨us, hus, hin⟩ := Expr.exists_segment (tokens_of_read h).2 hn
  cases hus
  obtain ⟨hinside, -, rest, hcut⟩ := exists_lexeme h (hin.subset List.mem_cons_self)
  have hlength : (src.slice span).length = (span.hi - span.lo).toNat := length_slice hinside
  have htwo : 2 ≤ (src.slice span).length := Lexeme.two_le_length_of_cut hcut
  omega

/-- The same stop at a moved span, or the same fault, is the moved stop. -/
theorem Eval.eq_move_of_sameResult {α : Type} {x x' : Except Stop α}
    (h : SameResult (fun span span' => span' = span.move d) Eq x x') : x' = x.mapError (Stop.move d) := by
  cases h with
  | ok a => rfl
  | error hstop =>
    cases hstop with
    | error cause hspan => rw [hspan]; rfl
    | exhausted => rfl
    | fault hf => rw [hf]; rfl

namespace Session

variable {src : Source} {names names' : NameTable} {e : Expr}

theorem read_move (s : Session) (src : Source) : s.read (src.move d) =
    (((s.read src).1.map (Expr.move d)).mapError (Failure.move d), (s.read src).2) := by
  rw [read, read, Source.read_move]
  generalize src.read s.names = x
  obtain ⟨x, names⟩ := x
  cases x with
  | ok e => rfl
  | error f =>
    refine Prod.ext ?_ rfl
    exact congrArg Except.error (Failure.ofReadFailure_move d f)

/-- What a line is read as has the same value when line and expression are moved, and leaves
    the same session. -/
theorem eval_move (host : Host) (h : src.read names = (.ok e, names')) (s : Session) :
    s.eval host (src.move d) (e.move d) =
      ((s.eval host src e).1.mapError (Failure.move d), (s.eval host src e).2) := by
  have hmatched : e.Matched (fun span span' => src.SameText (src.move d) span span' ∧ span' = span.move d)
      (fun span span' => span' = span.move d) (e.move d) :=
    Expr.matched_move d (fun n hn => ⟨Source.sameText_move d (Source.holds_of_mem_nodes h hn).1, rfl⟩) fun _ _ => rfl
  have hroom : Eval.StringsIn (fun span => span.lo + 1 ≤ span.hi - 1) e := fun span => Source.room_of_string h
  obtain ⟨hsession, hresult⟩ := (Eval.agree_evaluators (fun _ _ hs => hs) (fun _ _ hs => hs) (F := Eq) (fun _ => rfl)
    (fun _ _ _ hle hlt => absurd hle (Int.not_le.mpr hlt)) host).1 stackBudget e hroom (e.move d) hmatched s
  rw [eval, eval, Expr.span_move]
  refine Prod.ext ?_ hsession
  show Except.mapError _ _ = Except.mapError _ (Except.mapError _ _)
  rw [Eval.eq_move_of_sameResult d hresult]
  cases (Eval.eval host src stackBudget e s).1 with
  | ok v => rfl
  | error stop => exact congrArg Except.error (Failure.ofStop_move d e.span stop)

theorem readIn_move (host : Host) (s : Session) (src : Source) : s.readIn host (src.move d) =
    (((s.readIn host src).1.map (Expr.move d)).mapError (Failure.move d), (s.readIn host src).2) := by
  rw [readIn, readIn, Source.unrecorded?_move, Source.span_move]
  cases src.unrecorded? host.recordCost s.names with
  | none => exact s.read_move d src
  | some p => rfl

theorem run_move (host : Host) (s : Session) (src : Source) : s.run host (src.move d) =
    ((s.run host src).1.mapError (Failure.move d), (s.run host src).2) := by
  have hread := s.readIn_move d host src
  rw [run, run, hread]
  cases h : s.readIn host src with
  | mk result t =>
    cases result with
    | error f => rfl
    | ok e =>
      have hok : (s.readIn host src).1 = .ok e := congrArg Prod.fst h
      rw [readIn_of_ok hok] at hok
      obtain ⟨names, hnames⟩ := exists_read_of_read hok
      exact eval_move d host hnames t

theorem refuse_move (s : Session) (src : Source) (f : Failure) :
    (s.refuse (src.move d) (f.move d)).1 = (s.refuse src f).1 := by
  cases f with
  | read e => exact congrArg Except.ok (Diagnostic.render_move d e.kind e.message e.span src)
  | eval e => exact congrArg Except.ok (Diagnostic.render_move d e.kind e.message e.span src)
  | fault f => rfl

/-- A text that starts at `p` and the same text that starts at `q`, in any session: they are
    read as the same expression with its spans moved by `q - p`, or with the same error and
    its span moved, and leave the same names; evaluated, they have the same value or the same
    error with its span moved, and leave the same session, whatever session that is; and the
    canonical text and the diagnostics are the same, character for character. -/
theorem start_only_moves_spans (host : Host) (text : List Char) (p q : Int) (s : Session) :
    let src : Source := ⟨text, p⟩
    let src' : Source := ⟨text, q⟩
    let d := q - p
    s.readIn host src' = (((s.readIn host src).1.map (Expr.move d)).mapError (Failure.move d), (s.readIn host src).2) ∧
    s.run host src' = ((s.run host src).1.mapError (Failure.move d), (s.run host src).2) ∧
    (∀ e, (s.readIn host src).1 = .ok e → (e.move d).print src' = e.print src ∧
      ∀ t : Session, t.eval host src' (e.move d) =
        ((t.eval host src e).1.mapError (Failure.move d), (t.eval host src e).2)) ∧
    ∀ f : Failure, (s.refuse src' (f.move d)).1 = (s.refuse src f).1 := by
  intro src src' d
  have hmove : src' = src.move d := by
    have hstart : q = p + (q - p) := by omega
    exact congrArg (Source.mk text) hstart
  rw [hmove]
  refine ⟨s.readIn_move d host src, s.run_move d host src, fun e he => ?_, s.refuse_move d src⟩
  rw [readIn_of_ok he] at he
  obtain ⟨names, hread⟩ := exists_read_of_read he
  exact ⟨Source.print_move d fun n hn => (Source.holds_of_mem_nodes hread hn).1, eval_move d host hread⟩

/-- A string that is counted and a symbol without a value, on a line moved by seven. -/
theorem start_only_moves_spans_unbound :
    let text := "[(count \"a b\"),x]".toList
    let err : EvalError := ⟨Span.ofLength 15 1, .unbound ['x']⟩
    ∃ e, (fresh.read ⟨text, 0⟩).1 = .ok e ∧ (e.move 7).print ⟨text, 7⟩ = "[(count \"a b\") x]".toList ∧
      (fresh.run Hosts.none ⟨text, 0⟩).1 = .error (.eval err) ∧
      (fresh.run Hosts.none ⟨text, 7⟩).1 = .error (.eval ⟨Span.ofLength 22 1, err.cause⟩) := by
  intro text err
  have hprint : (fresh.read ⟨text, 0⟩).1.toOption.map (·.print ⟨text, 0⟩) = some "[(count \"a b\") x]".toList := by
    decide +kernel
  obtain ⟨e, he, hprint⟩ := Option.map_eq_some_iff.mp hprint
  have hread : (fresh.read ⟨text, 0⟩).1 = .ok e := Source.eq_ok_of_toOption he
  have herr : (match (fresh.run Hosts.none ⟨text, 0⟩).1 with
      | .error (.eval x) => some x
      | _ => none) = some err := by decide +kernel
  have hrun : (fresh.run Hosts.none ⟨text, 0⟩).1 = .error (.eval err) := by
    split at herr
    · rename_i hrun; cases herr; exact hrun
    · cases herr
  obtain ⟨-, hmoved, hexpr, -⟩ := start_only_moves_spans Hosts.none text 0 7 fresh
  have hagain := (hexpr e (readIn_quiet Hosts.none fresh _ ▸ hread)).1.trans hprint
  rw [hrun] at hmoved
  exact ⟨e, hread, hagain, hrun, congrArg Prod.fst hmoved⟩

end Session

end LineLisp
