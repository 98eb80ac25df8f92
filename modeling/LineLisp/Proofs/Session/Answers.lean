/-
  LineLisp.Proofs.Session.Answers — a session answers lines one after another.

  Every line has one answer, and what a line finds is what the lines before it left
  (`answers_append`).

  Where records take stack a line may be without it, while it is read (`Unrecorded`) or
  while it is evaluated (`RanShort`). A line that is not short of it is answered as if
  records took none, and so are lines of which none is (`answers_of_roomy`).
-/

import LineLisp.Answer
import LineLisp.Proofs.Eval.Budget
import LineLisp.Proofs.Lexeme.Tokens

namespace LineLisp

/-- No name is without stack for its record, if that takes none. -/
theorem Reader.unrecorded?_zero (line : Span) (names : NameTable) (groups : List OpenGroup)
    (xs : List Lexeme) : Reader.unrecorded? 0 line names groups xs = none := by
  induction xs generalizing names groups with
  | nil => rfl
  | cons x xs ih =>
    simp only [Reader.unrecorded?, Nat.not_lt_zero, and_false, if_false]
    split
    · rfl
    · split
      · exact ih _ _
      · rfl

theorem Reader.grows_finish (e : Expr) (names : NameTable) (xs : List Lexeme) : names.Grows (finish e names xs).2 := by
  unfold finish
  split
  · exact names.grows_refl
  · split
    · exact names.grows_refl
    · exact Lexeme.grows_token ‹_›

/-- Reading keeps the names that are there, also where it fails. -/
theorem Reader.grows_readFrom (line eof : Span) (names : NameTable) (groups : List OpenGroup) (xs : List Lexeme) :
    names.Grows (readFrom line eof names groups xs).2 := by
  induction xs generalizing names groups with
  | nil => exact names.grows_refl
  | cons x xs ih =>
    rw [readFrom]
    split
    · exact names.grows_refl
    · have hgrows := Lexeme.grows_token ‹_›
      split
      · exact hgrows
      · exact hgrows.trans (ih _ _)
      · exact hgrows.trans (grows_finish _ _ xs)

theorem Source.grows_read (src : Source) (names : NameTable) : names.Grows (src.read names).2 :=
  Reader.grows_readFrom src.span src.eof names [] src.lexemes

/-- The name without its record is in the table, after those that have theirs and before those
    that reading on would find. -/
theorem Reader.grows_of_unrecorded? {cost : Nat} {line : Span} (eof : Span) {names before more : NameTable}
    {groups : List OpenGroup} {xs : List Lexeme} (h : unrecorded? cost line names groups xs = some (before, more)) :
    names.Grows before ∧ before.Grows more ∧ before.size < more.size ∧
      more.Grows (readFrom line eof names groups xs).2 := by
  induction xs generalizing names groups with
  | nil => cases h
  | cons x xs ih =>
    cases hx : x.token names with
    | error f => simp only [unrecorded?, hx] at h; cases h
    | ok r =>
      obtain ⟨t, u⟩ := r
      have hgrows : names.Grows u := Lexeme.grows_token hx
      have hread : u.Grows (readFrom line eof names groups (x :: xs)).2 := by
        simp only [readFrom, hx]
        split
        · exact u.grows_refl
        · exact grows_readFrom line eof u _ xs
        · exact grows_finish _ u xs
      simp only [unrecorded?, hx] at h
      split at h
      · rename_i hnew
        cases h
        exact ⟨NameTable.grows_refl _, hgrows, hnew.1, hread⟩
      · cases hstep : step line groups ⟨t, x.span⟩ with
        | error e => simp only [hstep] at h; cases h
        | ok progress =>
          cases progress with
          | complete e => simp only [hstep] at h; cases h
          | pending more =>
            simp only [hstep] at h
            simp only [readFrom, hx, hstep]
            obtain ⟨hbefore, hrest⟩ := ih h
            exact ⟨hgrows.trans hbefore, hrest⟩

namespace Session

/-! ## One line -/

section

variable {s : Session} {src : Source} {names : NameTable} {e : Expr}

theorem read_eq_of_read (h : src.read s.names = (.ok e, names)) : s.read src = (.ok e, s.setNames names) := by
  rw [read, h]
  rfl

theorem exists_read_of_read (h : (s.read src).1 = .ok e) : ∃ names, src.read s.names = (.ok e, names) := by
  unfold read at h
  generalize src.read s.names = x at h
  obtain ⟨x, names⟩ := x
  cases x with
  | error failure => cases h
  | ok e => cases h; exact ⟨names, rfl⟩

theorem exists_failure_of_read {f : Failure} (h : (s.read src).1 = .error f) :
    ∃ failure, (src.read s.names).1 = .error failure ∧ f = .ofReadFailure failure := by
  unfold read at h
  generalize src.read s.names = x at h ⊢
  obtain ⟨x, names⟩ := x
  cases x with
  | error failure => cases h; exact ⟨failure, rfl, rfl⟩
  | ok e => cases h

/-! ## A line where records take stack -/

/-- Records that take no stack can all be made. -/
@[simp] theorem readIn_quiet (hosts : Hosts) (s : Session) (src : Source) : s.readIn hosts src = s.read src := by
  simp only [readIn, Source.unrecorded?, Reader.unrecorded?_zero]

/-- A line is nested too deeply for the record of a name, which comes after those in `names`. -/
structure Unrecorded (host : Host) (s : Session) (src : Source) (names more : NameTable) : Prop where
  cost : 0 < host.recordCost
  lexemes : src.lexemes ≠ []
  earlier : s.names.Grows names
  name : names.Grows more
  new : names.size < more.size
  rest : more.Grows (src.read s.names).2
  readIn : s.readIn host src = (.error (.read ⟨src.span, .tooDeep⟩), (s.setNames names).setTable more)

/-- A line is read as ever, or there is no stack for the record of one of its names. -/
theorem readIn_cases (host : Host) (s : Session) (src : Source) :
    s.readIn host src = s.read src ∨ ∃ names more, s.Unrecorded host src names more := by
  cases h : src.unrecorded? host.recordCost s.names with
  | none => exact Or.inl (by simp only [readIn, h])
  | some p =>
    obtain ⟨hearlier, hname, hnew, hrest⟩ := Reader.grows_of_unrecorded? src.eof h
    refine Or.inr ⟨p.1, p.2, Nat.pos_of_ne_zero fun hzero => ?_, fun hnil => ?_, hearlier, hname, hnew, hrest,
      by simp only [readIn, h]⟩
    · rw [hzero, Source.unrecorded?, Reader.unrecorded?_zero] at h
      cases h
    · rw [Source.unrecorded?, hnil] at h
      cases h

variable {host : Host} {f : Failure}

/-- Without a new name there is none to record. -/
theorem readIn_of_known (host : Host) (h : (src.read s.names).2 = s.names) : s.readIn host src = s.read src := by
  rcases readIn_cases host s src with hread | ⟨names, more, hunrecorded⟩
  · exact hread
  · have hrest := hunrecorded.rest
    rw [h] at hrest
    have hle : more.size ≤ names.size := Nat.le_trans (List.IsPrefix.length_le hrest) (List.IsPrefix.length_le hunrecorded.earlier)
    exact absurd hunrecorded.new (Nat.not_lt_of_le hle)

theorem readIn_of_ok (h : (s.readIn host src).1 = .ok e) : s.readIn host src = s.read src := by
  rcases readIn_cases host s src with hread | ⟨names, more, hunrecorded⟩
  · exact hread
  · rw [hunrecorded.readIn] at h
    cases h

theorem run_of_readIn (h : (s.readIn host src).1 = .ok e) : s.run host src = (s.readIn host src).2.eval host src e := by
  unfold run
  generalize s.readIn host src = x at h
  obtain ⟨x, s'⟩ := x
  subst h
  rfl

theorem run_of_readIn_error (h : (s.readIn host src).1 = .error f) : s.run host src = (.error f, (s.readIn host src).2) := by
  unfold run
  generalize s.readIn host src = x at h
  obtain ⟨x, s'⟩ := x
  subst h
  rfl

theorem exists_stop_of_eval (h : (s.eval host src e).1 = .error f) :
    ∃ stop, (Eval.eval host src stackBudget e s).1 = .error stop ∧ f = .ofStop e.span stop := by
  unfold eval at h
  generalize Eval.eval host src stackBudget e s = x at h ⊢
  obtain ⟨x, t⟩ := x
  cases x with
  | error stop => cases h; exact ⟨stop, rfl, rfl⟩
  | ok v => cases h

/-- A line with a reading error was not read. -/
theorem readIn_of_run_error {err : ReadError} (h : (s.run host src).1 = .error (.read err)) :
    (s.readIn host src).1 = .error (.read err) := by
  cases hread : (s.readIn host src).1 with
  | error f => rw [run_of_readIn_error hread] at h; cases h; rfl
  | ok e =>
    rw [run_of_readIn hread] at h
    obtain ⟨stop, -, hf⟩ := exists_stop_of_eval h
    cases stop <;> cases hf

/-- Reading or evaluating a line ran short of stack, where records take some: the line is
    nested too deeply, or frames were left out of order. -/
structure RanShort (host : Host) (s : Session) (src : Source) : Prop where
  cost : 0 < host.recordCost
  stop : (s.run host src).1 = .error (.read ⟨src.span, .tooDeep⟩) ∨
    (∃ span, (s.run host src).1 = .error (.eval ⟨span, .tooDeep⟩)) ∨ (s.run host src).1 = .error (.fault .framesOutOfOrder)

theorem Unrecorded.run {names more : NameTable} (h : s.Unrecorded host src names more) :
    s.run host src = (.error (.read ⟨src.span, .tooDeep⟩), (s.setNames names).setTable more) := by
  rw [run_of_readIn_error (congrArg Prod.fst h.readIn), h.readIn]

theorem Unrecorded.ranShort {names more : NameTable} (h : s.Unrecorded host src names more) : s.RanShort host src :=
  ⟨h.cost, Or.inl (congrArg Prod.fst h.run)⟩

/-- An evaluation that ran short makes its line one that did. -/
theorem ranShort_of_eval (hread : (s.readIn host src).1 = .ok e)
    (h : Eval.RanShort host (Eval.eval host src stackBudget e (s.readIn host src).2).1) : s.RanShort host src := by
  have hrun : (s.run host src).1
      = (Eval.eval host src stackBudget e (s.readIn host src).2).1.mapError (.ofStop e.span) := by
    rw [run_of_readIn hread]
    rfl
  refine ⟨h.cost, Or.inr ?_⟩
  rw [hrun]
  rcases h.stop with hstop | hstop
  · exact Or.inl ⟨e.span, by rw [hstop]; rfl⟩
  · exact Or.inr (by rw [hstop]; rfl)

/-- A `let` around so many branches around a `let`. -/
def letsApart (n : Nat) : List Char :=
  "(let [] ".toList ++ (List.replicate n "(if true ".toList).flatten ++ "(let [] 1)".toList ++
    (List.replicate n " 1)".toList).flatten ++ [')']

theorem not_ranShort_quiet {hosts : Hosts} : ¬ RanShort hosts s src := fun h => absurd h.cost (Nat.lt_irrefl 0)

/-- A line that cannot be read has the same answer in either mode. -/
theorem answer_of_readIn_failure (mode : Mode) {line : List Char} (h : (s.readIn host ⟨line, 0⟩).1 = .error f) :
    (s.answer host mode line).1 = (s.refuse ⟨line, 0⟩ f).1 := by
  cases mode with
  | read =>
    simp only [answer]
    generalize s.readIn host ⟨line, 0⟩ = x at h
    obtain ⟨x, t⟩ := x
    subst h
    cases f <;> rfl
  | eval =>
    simp only [answer, run_of_readIn_error h]
    cases f <;> rfl

end

/-! ## Lines one after another -/

/-- The answers to lines, and the session at the end. -/
def answers (host : Host) (mode : Mode) (s : Session) :
    List (List Char) → List (Except Fault (List Char)) × Session
  | [] => ([], s)
  | line :: lines =>
    let (reply, s) := s.answer host mode line
    let (replies, s) := answers host mode s lines
    (reply :: replies, s)

variable (host : Host) (mode : Mode)

/-- None of the lines runs short of stack, each in the session that the ones before it leave. -/
def Roomy (s : Session) (lines : List (List Char)) : Prop :=
  ∀ before line after, lines = before ++ line :: after → ¬ (s.answers host mode before).2.RanShort host ⟨line, 0⟩

variable {host mode} in
theorem Roomy.cons {s : Session} {line : List Char} {lines : List (List Char)} (h : Roomy host mode s (line :: lines)) :
    ¬ s.RanShort host ⟨line, 0⟩ ∧ Roomy host mode (s.answer host mode line).2 lines :=
  ⟨h [] line lines rfl, fun before next after hlines => h (line :: before) next after (congrArg (line :: ·) hlines)⟩

theorem roomy_quiet (hosts : Hosts) (s : Session) (lines : List (List Char)) : Roomy hosts mode s lines :=
  fun _ _ _ _ => not_ranShort_quiet

variable {host mode} in
/-- Records that have their stack change no answer: a line that does not run short of stack
    is answered as where records take none, and leaves the same session. -/
theorem answer_of_not_ranShort {s : Session} {line : List Char} (h : ¬ s.RanShort host ⟨line, 0⟩) :
    s.answer host mode line = s.answer host.functions mode line := by
  obtain ⟨functions, cost⟩ := host
  rcases Nat.eq_zero_or_pos cost with rfl | hcost
  · rfl
  have hread : s.readIn ⟨functions, cost⟩ ⟨line, 0⟩ = s.read ⟨line, 0⟩ :=
    (readIn_cases _ s _).resolve_right fun ⟨_, _, hunrecorded⟩ => h hunrecorded.ranShort
  have hrun : s.run ⟨functions, cost⟩ ⟨line, 0⟩ = s.run functions ⟨line, 0⟩ := by
    cases hx : (s.read ⟨line, 0⟩).1 with
    | error f => rw [run_of_readIn_error (hread ▸ hx), run_of_readIn_error (by rw [readIn_quiet, hx]), hread, readIn_quiet]
    | ok e =>
      have hsparing : Eval.Sparing ⟨functions, cost⟩ functions := ⟨rfl, Nat.zero_le cost⟩
      have hroom : ¬ Eval.Starved ⟨functions, cost⟩ (Eval.eval ⟨functions, cost⟩ ⟨line, 0⟩ stackBudget e (s.read ⟨line, 0⟩).2).1 := by
        rw [← hread] at hx ⊢
        rintro (hexhausted | hshort)
        · exact h (ranShort_of_eval hx ⟨hcost, Or.inl hexhausted⟩)
        · exact h (ranShort_of_eval hx hshort)
      have heval := (Eval.outlasts_evaluators hsparing ⟨line, 0⟩).1 stackBudget e stackBudget (Nat.le_refl _) _ hroom
      rw [run_of_readIn (hread ▸ hx), run_of_readIn (by rw [readIn_quiet, hx]), hread, readIn_quiet, eval, eval, heval]
  cases mode with
  | read => simp only [answer, hread, readIn_quiet]
  | eval => simp only [answer, hrun]

variable {host mode} in
theorem answers_of_roomy {s : Session} {lines : List (List Char)} (h : Roomy host mode s lines) :
    s.answers host mode lines = s.answers host.functions mode lines := by
  induction lines generalizing s with
  | nil => rfl
  | cons line lines ih =>
    obtain ⟨hline, hrest⟩ := h.cons
    have hanswer : s.answer host mode line = _ := answer_of_not_ranShort hline
    rw [hanswer] at hrest
    simp only [answers, hanswer, ih hrest]

theorem answers_append (s : Session) (before after : List (List Char)) :
    s.answers host mode (before ++ after)
      = ((s.answers host mode before).1 ++ ((s.answers host mode before).2.answers host mode after).1,
          ((s.answers host mode before).2.answers host mode after).2) := by
  induction before generalizing s with
  | nil => rfl
  | cons line before ih =>
    have hrest := ih (s.answer host mode line).2
    simp only [List.cons_append, answers, hrest]

end Session

end LineLisp
