/-
  LineLisp.Proofs.Session.Records — the log of a session tells the truth.

  Reading a line adds records of names, evaluating it those of its path, and refusing it one
  record (`exists_records_of_answer`). From line to line the log tells nothing of names but
  what is in the table, in order (`NamedInPart.answer`). Where no line has run short of stack it
  tells the whole table, at the bottom frame, and the records of a line lead from there to
  there (`Truthful.answer`). `log_tells_the_truth` says all that of any line of any session
  with the built-ins only.

  Where records take stack, that condition is needed: a `let` within a `let` for whose frame
  there is no record leaves one bracket open (`log_of_letsApart`).
-/

import LineLisp.CommandLine
import LineLisp.Proofs.Eval.Records
import LineLisp.Proofs.Expr.Interning
import LineLisp.Proofs.Session.Answers

namespace LineLisp

namespace Session

open Eval (Config Path definition? outcome)

variable {host : Host} {src : Source} {s t : Session} {line : List Char}

/-! ## Reading and refusing a line -/

theorem adds_read (s : Session) (src : Source) :
    ∃ rs, s.Adds (s.read src).2 rs ∧ ∀ r ∈ rs, r.depth? = none :=
  ⟨_, s.adds_setNames _, fun _ => NameTable.depth?_of_mem_newRecords⟩

theorem adds_readIn (host : Host) (s : Session) (src : Source) :
    ∃ rs, s.Adds (s.readIn host src).2 rs ∧ ∀ r ∈ rs, r.depth? = none := by
  rcases readIn_cases host s src with hread | ⟨names, more, h⟩
  · rw [hread]
    exact s.adds_read src
  · have hadds := s.adds_setNames names
    rw [h.readIn]
    exact ⟨_, ⟨hadds.log, hadds.depth⟩, fun _ => NameTable.depth?_of_mem_newRecords⟩

theorem adds_refuse (s : Session) (src : Source) (f : Failure) :
    ∃ rs, s.Adds (s.refuse src f).2 rs ∧ ∀ r ∈ rs, r.depth? = none := by
  cases f with
  | read e => exact ⟨_, s.adds_note rfl, List.forall_mem_singleton.mpr rfl⟩
  | eval e => exact ⟨_, s.adds_note rfl, List.forall_mem_singleton.mpr rfl⟩
  | fault f => exact ⟨[], s.adds_refl, fun r hr => nomatch hr⟩

theorem interned_refuse (s : Session) (src : Source) (f : Failure) : (s.refuse src f).2.interned = s.interned := by
  cases f with
  | read e => exact s.interned_note rfl
  | eval e => exact s.interned_note rfl
  | fault f => rfl

theorem names_refuse (s : Session) (src : Source) (f : Failure) : (s.refuse src f).2.names = s.names := by
  cases f <;> rfl

theorem depth_refuse (s : Session) (src : Source) (f : Failure) : (s.refuse src f).2.depth = s.depth := by
  cases f <;> rfl

/-! ## Answering a line -/

/-- A line is read, and evaluated if it could be read, and refused if either failed. -/
theorem answer_cases (host : Host) (s : Session) (line : List Char) :
    let src : Source := ⟨line, 0⟩
    (∃ f, (s.readIn host src).1 = .error f ∧ (s.answer host .eval line).2 = ((s.readIn host src).2.refuse src f).2) ∨
      ∃ e, (s.readIn host src).1 = .ok e ∧
        let t := (Eval.eval host src stackBudget e (s.readIn host src).2).2
        (s.answer host .eval line).2 = t ∨ ∃ f, (s.answer host .eval line).2 = (t.refuse src f).2 := by
  intro src
  simp only [answer, run]
  generalize s.readIn host src = x
  obtain ⟨f | e, s⟩ := x
  · exact Or.inl ⟨f, rfl, rfl⟩
  · refine Or.inr ⟨e, rfl, ?_⟩
    simp only [eval]
    generalize Eval.eval host src stackBudget e s = y
    obtain ⟨stop | v, t⟩ := y
    · exact Or.inr ⟨_, rfl⟩
    · exact Or.inl rfl

/-- The configurations that a session comes by when it evaluates a line; there are none if it
    cannot read the line. -/
def ComesBy (host : Host) (s : Session) (src : Source) (cs : List Config) : Prop :=
  match s.readIn host src with
  | (.ok e, t) => Path host src ⟨.expr stackBudget e, [], t⟩ cs (outcome (Eval.eval host src stackBudget e) [] t)
  | (.error _, _) => cs = []

theorem comesBy_of_read {e : Expr} {cs : List Config} (h : (s.readIn host src).1 = .ok e)
    (hpath : Path host src ⟨.expr stackBudget e, [], (s.readIn host src).2⟩ cs
      (outcome (Eval.eval host src stackBudget e) [] (s.readIn host src).2)) : s.ComesBy host src cs := by
  unfold ComesBy
  generalize s.readIn host src = x at h hpath
  obtain ⟨r, t⟩ := x
  subst h
  exact hpath

theorem comesBy_of_read_error {f : Failure} (h : (s.readIn host src).1 = .error f) : s.ComesBy host src [] := by
  unfold ComesBy
  generalize s.readIn host src = x at h
  obtain ⟨r, t⟩ := x
  subst h
  rfl

/-- The records of a line, and the configurations that it came by. -/
theorem exists_records_of_answer (host : Host) (s : Session) (line : List Char) :
    ∃ rs cs, (s.answer host .eval line).2.log.toList = s.log.toList ++ rs ∧
      (LogEvent.depthAfterAll? s.depth rs = some (s.answer host .eval line).2.depth ∨ s.RanShort host ⟨line, 0⟩) ∧
      s.ComesBy host ⟨line, 0⟩ cs ∧ (rs.filter LogEvent.isDefined).Perm (cs.filterMap (definition? host ⟨line, 0⟩)) := by
  obtain ⟨first, hfirst, hsilent⟩ := s.adds_readIn host ⟨line, 0⟩
  obtain ⟨f, hread, hanswer⟩ | ⟨e, hread, hanswer⟩ := answer_cases host s line
  · obtain ⟨last, hlast, hsilent'⟩ := (s.readIn host ⟨line, 0⟩).2.adds_refuse ⟨line, 0⟩ f
    have hadds := hfirst.trans hlast
    rw [hanswer]
    refine ⟨first ++ last, [], hadds.log, Or.inl hadds.depth, comesBy_of_read_error hread, ?_⟩
    rw [List.filter_append, LogEvent.filter_isDefined_of_silent hsilent, LogEvent.filter_isDefined_of_silent hsilent']
    exact .nil
  · obtain ⟨cs, rs, h⟩ := Eval.recorded_eval host ⟨line, 0⟩ stackBudget e (s.readIn host ⟨line, 0⟩).2
    have hcomes : s.ComesBy host ⟨line, 0⟩ cs := comesBy_of_read hread h.path
    -- the value has the records of the path, and a failure one more, which tells of no frame
    obtain ⟨last, hlast, hsilent'⟩ : ∃ last,
        Adds (Eval.eval host ⟨line, 0⟩ stackBudget e (s.readIn host ⟨line, 0⟩).2).2 (s.answer host .eval line).2 last ∧
          ∀ r ∈ last, r.depth? = none := by
      rcases hanswer with hanswer | ⟨f, hanswer⟩
      · rw [hanswer]
        exact ⟨[], adds_refl _, fun r hr => nomatch hr⟩
      · rw [hanswer]
        exact adds_refuse _ _ f
    refine ⟨first ++ rs ++ last, cs, ?_, ?_, hcomes, ?_⟩
    · have hlog : (Eval.eval host ⟨line, 0⟩ stackBudget e (s.readIn host ⟨line, 0⟩).2).2.log.toList
          = (s.readIn host ⟨line, 0⟩).2.log.toList ++ rs := h.log
      rw [hlast.log, hlog, hfirst.log, List.append_assoc, List.append_assoc, List.append_assoc]
    · rcases h.replayed with hreplayed | hshort
      · have hbefore := LogEvent.depthAfterAll?_append.mpr ⟨_, hfirst.depth, hreplayed⟩
        exact Or.inl (LogEvent.depthAfterAll?_append.mpr ⟨_, hbefore, hlast.depth⟩)
      · obtain ⟨_, ⟨⟩, hshort⟩ := hshort
        exact Or.inr (ranShort_of_eval hread hshort)
    · rw [List.filter_append, List.filter_append, LogEvent.filter_isDefined_of_silent hsilent,
        LogEvent.filter_isDefined_of_silent hsilent', List.append_nil]
      exact h.definitions

/-! ## Line after line -/

theorem NamedInPart.answer (h : s.NamedInPart) (host : Host) (line : List Char) :
    (s.answer host .eval line).2.NamedInPart := by
  have hread : (s.readIn host ⟨line, 0⟩).2.NamedInPart := by
    rcases readIn_cases host s ⟨line, 0⟩ with hread | ⟨names, more, hunrecorded⟩
    · rw [hread]
      exact h.setNames (Source.grows_read _ s.names)
    · rw [hunrecorded.readIn]
      exact (h.setNames hunrecorded.earlier).setTable hunrecorded.name
  have hrefuse : ∀ {t : Session}, t.NamedInPart → ∀ f, (t.refuse ⟨line, 0⟩ f).2.NamedInPart := by
    intro t ht f
    rw [NamedInPart, interned_refuse, names_refuse]
    exact ht
  obtain ⟨f, -, hanswer⟩ | ⟨e, -, hanswer⟩ := answer_cases host s line
  · exact hanswer ▸ hrefuse hread f
  · have heval := (Eval.runs_eval host ⟨line, 0⟩ stackBudget e [] (s.readIn host ⟨line, 0⟩).2).namedInPart hread
    rcases hanswer with hanswer | ⟨f, hanswer⟩
    · exact hanswer ▸ heval
    · exact hanswer ▸ hrefuse heval f

theorem NamedInPart.answers (h : s.NamedInPart) (host : Host) (lines : List (List Char)) :
    (s.answers host .eval lines).2.NamedInPart := by
  induction lines generalizing s with
  | nil => exact h
  | cons line lines ih => exact ih (h.answer host line)

/-- At the bottom frame, with a log that tells the table. -/
structure Truthful (s : Session) : Prop where
  named : s.Named
  depth : s.depth = 1

theorem Truthful.register (h : s.Truthful) (b : Builtin) : (s.register b).Truthful where
  named := h.named.setNames (s.names.grows_intern _)
  depth := (FrameStack.depth_insert _ _ _).trans h.depth

theorem truthful_fresh : fresh.Truthful := by
  have hall : ∀ (bs : List Builtin) (s : Session), s.Truthful → (bs.foldl Session.register s).Truthful := by
    intro bs
    induction bs with
    | nil => exact fun s hs => hs
    | cons b bs ih => exact fun s hs => ih _ (hs.register b)
  exact hall Builtin.all empty ⟨rfl, rfl⟩

theorem Truthful.read (h : s.Truthful) (src : Source) : (s.read src).2.Truthful where
  named := h.named.setNames (src.grows_read s.names)
  depth := h.depth

theorem Truthful.readIn (h : s.Truthful) (hroom : ¬ s.RanShort host src) : (s.readIn host src).2.Truthful := by
  rcases readIn_cases host s src with hread | ⟨names, more, hunrecorded⟩
  · rw [hread]
    exact h.read src
  · exact absurd hunrecorded.ranShort hroom

theorem Truthful.refuse (h : s.Truthful) (src : Source) (f : Failure) : (s.refuse src f).2.Truthful where
  named := by
    rw [Named, interned_refuse, names_refuse]
    exact h.named
  depth := (s.depth_refuse src f).trans h.depth

theorem Truthful.eval {e : Expr} (hread : (s.readIn host src).1 = .ok e) (h : (s.readIn host src).2.Truthful)
    (hroom : ¬ s.RanShort host src) : (Eval.eval host src stackBudget e (s.readIn host src).2).2.Truthful where
  named :=
    ((Eval.runs_eval host src stackBudget e [] _).named h.named).resolve_right fun ⟨_, heq, hshort⟩ => by
      cases heq
      exact hroom (ranShort_of_eval hread hshort)
  depth := by
    rcases (Eval.confined_evaluators host src).1 stackBudget e (s.readIn host src).2 with hwrites | hstrays
    · exact hwrites.depth_eq.trans h.depth
    · exact absurd (ranShort_of_eval hread hstrays.short) hroom

theorem Truthful.answer (h : s.Truthful) (hroom : ¬ s.RanShort host ⟨line, 0⟩) :
    (s.answer host .eval line).2.Truthful := by
  have hreadIn := h.readIn hroom
  obtain ⟨f, -, hanswer⟩ | ⟨e, hread, hanswer | ⟨f, hanswer⟩⟩ := answer_cases host s line
  · exact hanswer ▸ hreadIn.refuse _ f
  · exact hanswer ▸ hreadIn.eval hread hroom
  · exact hanswer ▸ (hreadIn.eval hread hroom).refuse _ f

theorem Truthful.answers {lines : List (List Char)} (h : s.Truthful) (hroom : Roomy host .eval s lines) :
    (s.answers host .eval lines).2.Truthful := by
  induction lines generalizing s with
  | nil => exact h
  | cons line lines ih =>
    obtain ⟨hline, hrest⟩ := hroom.cons
    exact ih (h.answer hline) hrest

/-- After any lines the records of names are in the table, in its order, each text with its
    place for its name. The definitions among the records of a further line, whatever becomes
    of it, are those of the `def` forms that its evaluation comes by and completes, each once,
    and every record has the depth that there is then. If no line has run short of stack,
    the records of names are the whole table and there is one frame; and if the further line
    does not either, its records are balanced and there is one frame again. -/
theorem log_tells_the_truth (host : Host) (lines : List (List Char)) (line : List Char) :
    let s := (fresh.answers host .eval lines).2
    let t := (s.answer host .eval line).2
    let src : Source := ⟨line, 0⟩
    s.interned.Sublist s.names.texts.zipIdx ∧
    (Roomy host .eval fresh lines → s.interned = s.names.texts.zipIdx ∧ s.depth = 1) ∧
      ∃ rs cs, t.log.toList = s.log.toList ++ rs ∧ s.ComesBy host src cs ∧
        (rs.filter LogEvent.isDefined).Perm (cs.filterMap (definition? host src)) ∧
        (∀ c ∈ cs, ∀ d, Eval.Step host src c d → ∃ new, d.session.log.toList = c.session.log.toList ++ new ∧
          ∀ r ∈ new, ∀ n, r.depth? = some n → n = d.session.depth) ∧
        (Roomy host .eval fresh lines → ¬ s.RanShort host src → LogEvent.Balanced rs ∧ t.depth = 1) := by
  intro s t src
  obtain ⟨rs, cs, hlog, hreplayed, hcomes, hdefinitions⟩ := exists_records_of_answer host s line
  have hs : Roomy host .eval fresh lines → s.Truthful := truthful_fresh.answers
  refine ⟨truthful_fresh.named.inPart.answers host lines, fun hroom => ⟨(hs hroom).named, (hs hroom).depth⟩, rs, cs, hlog,
    hcomes, hdefinitions, fun c _ d hstep => ?_, fun hlines hline => ?_⟩
  · obtain ⟨new, hnew⟩ := hstep.change.tells
    exact ⟨new, hnew.log, hnew.depth⟩
  · have ht : t.depth = 1 := ((hs hlines).answer hline).depth
    have hreplay := hreplayed.resolve_right hline
    rw [(hs hlines).depth, show (s.answer host .eval line).2.depth = 1 from ht] at hreplay
    exact ⟨LogEvent.balanced_of_depthAfterAll? hreplay, ht⟩

/-- With records shown, a `let` far inside another has no stack for the record of its frame.
    The outer one takes that frame off for its own, which is still there after the line. -/
theorem log_of_letsApart :
    let t := (fresh.answer (CommandLine.host LogLevel.debug) .eval (letsApart 325)).2
    t.depth = 2 ∧ ∀ rs, t.log.toList = fresh.log.toList ++ rs → ¬ LogEvent.Balanced rs := by
  intro t
  have hleft : t.depth = 2 ∧ t.log.toList = fresh.log.toList ++ [.pushed 2] := by decide +kernel
  refine ⟨hleft.1, fun rs hrs hbalanced => ?_⟩
  obtain rfl : rs = [.pushed 2] := List.append_cancel_left (hrs.symm.trans hleft.2)
  exact absurd hbalanced.closed (by decide)

/-- A definition in a `let` that then fails: its record stands between those of the frame. -/
example : ((fresh.answer Hosts.none .eval "(let [a (def b 1)] (f a))".toList).2.log.toList.drop 16) =
    [.interned (.ofString "a") 16, .interned (.ofString "b") 17, .interned (.ofString "f") 18, .pushed 2,
      .defined ['b'] 2, .popped 1, .evalFailed .undefinedSymbol (Span.ofLength 20 1)] := by decide +kernel

end Session

end LineLisp
