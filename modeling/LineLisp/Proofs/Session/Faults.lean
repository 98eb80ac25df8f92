/-
  LineLisp.Proofs.Session.Faults — the faults that a session can meet.

  A session that only ever answered lines holds values of its own and no others
  (`Value.Own`): each can be printed, and no built-in fails on them. What it reads has no
  operator where it would be evaluated and no string without room for its quotes. So of
  all faults three are left: a number too long to convert, while reading; frames left out of
  order, while evaluating where records take stack; and a value nested too deeply to show,
  after evaluating (`internal_faults_unreachable`).
-/

import LineLisp.CommandLine
import LineLisp.Proofs.Expr.Failures
import LineLisp.Proofs.Lexeme.Writing
import LineLisp.Proofs.Spelled.Proper
import LineLisp.Proofs.Spelled.Sessions

namespace LineLisp

/-! ## Numbers of too many digits -/

/-- Only a lexeme that is a number of too many digits keeps reading from an answer. -/
theorem Reader.exists_numeral_of_failed {line eof : Span} {names : NameTable} {groups : List OpenGroup}
    {xs : List Lexeme} {f : ReadFailure} (h : Failed line eof names groups xs f) {n : Nat} (hf : f = .tooManyDigits n) :
    ∃ x ∈ xs, ∃ names, x.token names = .error (.tooManyDigits n) := by
  induction h with
  | atEnd | misplaced | trailing => cases hf
  | malformed xs hx =>
    subst hf
    exact ⟨_, List.mem_cons_self, _, hx⟩
  | later _ _ _ ih =>
    obtain ⟨x, hx, htoken⟩ := ih hf
    exact ⟨x, List.mem_cons_of_mem _ hx, htoken⟩
  | malformedAfter ys _ _ hy =>
    subst hf
    exact ⟨_, List.mem_cons_of_mem _ List.mem_cons_self, _, hy⟩

/-- The line has a number of so many digits, and they are too many. -/
def Source.HasLongNumber (src : Source) (count : Nat) : Prop :=
  ∃ x ∈ src.lexemes, ∃ digits n, Numeral x.text digits n ∧ digits.length = count ∧ maxDigits < count

theorem Source.hasLongNumber_of_read {src : Source} {names : NameTable} {count : Nat}
    (h : (src.read names).1 = .error (.tooManyDigits count)) : src.HasLongNumber count := by
  obtain ⟨x, hx, u, htoken⟩ := Reader.exists_numeral_of_failed (Reader.failed_of_readFrom h) rfl
  obtain ⟨hcut, -⟩ := cut_of_mem_lexemes hx
  have hflawed := Lexeme.flawed_of_token hcut htoken
  generalize ht : x.text = text at hflawed
  cases hflawed with
  | @tooManyDigits _ digits n hnumeral hlong => exact ⟨x, hx, digits, n, ht ▸ hnumeral, rfl, hlong⟩

/-! ## What a session makes itself -/

/-- A value that the interpreter made itself: its keywords are names of the table, its
    functions are built in, and nothing in it is a thing of a host. -/
def Value.Own (names : NameTable) (v : Value) : Prop := ∃ w, v.spelled? names = some w

theorem Value.Own.display {names : NameTable} {v : Value} (h : v.Own names) : ∃ text, v.display names = .ok text := by
  obtain ⟨w, hw⟩ := h
  exact ⟨w.display, display_spells hw⟩

theorem Value.exists_spelledEach? {names : NameTable} {vs : List Value} (h : ∀ v ∈ vs, v.Own names) :
    ∃ ws, spelledEach? names vs = some ws := by
  induction vs with
  | nil => exact ⟨[], rfl⟩
  | cons v vs ih =>
    obtain ⟨⟨w, hw⟩, hvs⟩ := List.forall_mem_cons.mp h
    obtain ⟨ws, hws⟩ := ih hvs
    exact ⟨w :: ws, spelledEach?_cons_eq_some.mpr ⟨w, ws, hw, hws, rfl⟩⟩

/-- A built-in has a value or has none. -/
theorem Builtin.run_ne_fault {names : NameTable} {args : List Value} (h : ∀ v ∈ args, v.Own names) (b : Builtin)
    (f : Fault) : (b.run names args).1 ≠ .fault f := by
  obtain ⟨ws, hws⟩ := Value.exists_spelledEach? h
  obtain ⟨-, o, hreply, -⟩ := b.run_spells hws
  rw [hreply]
  cases o <;> exact fun hf => nomatch hf

namespace Session

open Spelled (Matches)

variable {host : Host} {s : Session} {src : Source} {f : Fault} {v : Value}

/-- A session that holds nothing but what it made itself. -/
def Own (s : Session) : Prop := ∃ t r, Matches t s r

theorem own_fresh : fresh.Own := ⟨_, _, Spelled.fresh_matches⟩

theorem Own.readIn (hs : s.Own) (host : Host) (src : Source) : (s.readIn host src).2.Own := by
  obtain ⟨t, r, hs⟩ := hs
  rcases readIn_cases host s src with hread | ⟨names, more, h⟩
  · rw [hread]
    exact ⟨_, _, (Spelled.read_matches hs src).1⟩
  · rw [h.readIn]
    exact ⟨_, r, h.name, hs.frames.of_grows (h.earlier.trans h.name)⟩

theorem Own.run (hs : s.Own) (host : Host) (src : Source) : (s.run host src).2.Own := by
  obtain ⟨t, r, hs⟩ := hs
  rcases Spelled.run_matches host hs src with ⟨hleft, -⟩ | ⟨-, r', hleft⟩
  · exact ⟨_, _, hleft⟩
  · exact ⟨_, _, hleft⟩

theorem Own.refuse (hs : s.Own) (src : Source) (f : Failure) : (s.refuse src f).2.Own := by
  obtain ⟨t, r, hs⟩ := hs
  cases f <;> exact ⟨t, r, hs.grows, hs.frames⟩

theorem Own.answer (hs : s.Own) (host : Host) (mode : Mode) (line : List Char) : (s.answer host mode line).2.Own := by
  cases mode with
  | eval =>
    have hrun := hs.run host ⟨line, 0⟩
    simp only [Session.answer]
    generalize s.run host ⟨line, 0⟩ = x at hrun
    obtain ⟨f | v, u⟩ := x
    · exact hrun.refuse _ f
    · exact hrun
  | read =>
    have hread := hs.readIn host ⟨line, 0⟩
    simp only [Session.answer]
    generalize s.readIn host ⟨line, 0⟩ = x at hread
    obtain ⟨f | e, u⟩ := x
    · exact hread.refuse _ f
    · exact hread

theorem Own.answers (hs : s.Own) (host : Host) (mode : Mode) (lines : List (List Char)) :
    (s.answers host mode lines).2.Own := by
  induction lines generalizing s with
  | nil => exact hs
  | cons line lines ih => exact ih (hs.answer host mode line)

/-- All that is bound is the session's own. -/
theorem Own.of_mem_frames (hs : s.Own) {frame : Frame Name Value} (hf : frame ∈ s.frames.frames)
    {entry : Name × Value} (he : entry ∈ frame.entries) : entry.2.Own s.names := by
  obtain ⟨t, r, hs⟩ := hs
  obtain ⟨g, -, hg⟩ := exists_of_forall₂_left hs.frames.frames hf
  obtain ⟨q, -, -, hq⟩ := exists_of_forall₂_left hg he
  exact ⟨q.2, hq⟩

theorem Own.value (hs : s.Own) (h : (s.run host src).1 = .ok v) : v.Own (s.run host src).2.names := by
  obtain ⟨t, r, hs⟩ := hs
  rcases Spelled.run_matches host hs src with ⟨-, hout⟩ | ⟨⟨-, hstop⟩, -⟩
  · rw [h] at hout
    generalize (Spelled.run r src).1 = x at hout
    cases hout with
    | @ok _ w hw => exact ⟨w, hw⟩
  · rw [h] at hstop
    rcases hstop with hstop | ⟨span, hstop⟩ | hstop <;> cases hstop

/-! ## What a line is answered with -/

/-- A line that is not read has an error, or a number of too many digits. -/
theorem failure_of_readIn {f : Failure} (h : (s.readIn host src).1 = .error f) :
    (∃ e, f = .read e) ∨ ∃ count, f = .fault (.tooManyDigits count) ∧ src.HasLongNumber count := by
  rcases readIn_cases host s src with hread | ⟨names, more, hunrecorded⟩
  · rw [hread] at h
    obtain ⟨failure, hfailure, rfl⟩ := exists_failure_of_read h
    cases failure with
    | error e => exact Or.inl ⟨e, rfl⟩
    | tooManyDigits count => exact Or.inr ⟨count, rfl, Source.hasLongNumber_of_read hfailure⟩
  · rw [hunrecorded.readIn] at h
    cases h
    exact Or.inl ⟨_, rfl⟩

/-- A line whose evaluation ends in a fault was not read, or has left frames out of order. -/
theorem run_fault (hs : s.Own) (h : (s.run host src).1 = .error (.fault f)) :
    (s.readIn host src).1 = .error (.fault f) ∨ f = .framesOutOfOrder ∧ 0 < host.recordCost := by
  obtain ⟨t, r, hs⟩ := hs
  rcases Spelled.run_matches host hs src with ⟨-, hout⟩ | ⟨⟨hcost, hstop⟩, -⟩
  · rw [h] at hout
    generalize hrun : (Spelled.run r src).1 = x at hout
    cases hout
    obtain ⟨n, rfl, hread⟩ := Spelled.run_fault hrun
    obtain ⟨-, hout⟩ := Spelled.read_matches hs src
    rw [hread] at hout
    generalize hx : (s.read src).1 = y at hout
    cases hout
    rcases readIn_cases host s src with hread | ⟨names, more, hunrecorded⟩
    · exact Or.inl (by rw [hread, hx]; rfl)
    · rw [hunrecorded.run] at h
      cases h
  · rw [h] at hstop
    rcases hstop with hstop | ⟨span, hstop⟩ | hstop
    · cases hstop
    · cases hstop
    · cases hstop
      exact Or.inr ⟨rfl, hcost⟩

/-- What a line is answered with. -/
inductive Answered (host : Host) (mode : Mode) (s : Session) (line : List Char) : List Char → Prop
  | canonical {e : Expr} : mode = .read → (s.readIn host ⟨line, 0⟩).1 = .ok e →
      Answered host mode s line (e.print ⟨line, 0⟩ ++ ['\n'])
  | value {v : Value} {text : Glyphs} : mode = .eval → (s.run host ⟨line, 0⟩).1 = .ok v →
      v.display (s.run host ⟨line, 0⟩).2.names = .ok text → Answered host mode s line (text.shown ++ ['\n'])
  | readError {e : ReadError} : (s.readIn host ⟨line, 0⟩).1 = .error (.read e) →
      Answered host mode s line (e.diagnostic.render ⟨line, 0⟩)
  | evalError {e : EvalError} : mode = .eval → (s.run host ⟨line, 0⟩).1 = .error (.eval e) →
      Answered host mode s line (e.diagnostic.render ⟨line, 0⟩)

/-- Why a line is not answered: it could not be converted, frames were left out of order, or its
    value could not be shown. -/
inductive Unanswered (host : Host) (mode : Mode) (s : Session) (line : List Char) : Fault → Prop
  | digits {count : Nat} : (s.readIn host ⟨line, 0⟩).1 = .error (.fault (.tooManyDigits count)) →
      Source.HasLongNumber ⟨line, 0⟩ count → Unanswered host mode s line (.tooManyDigits count)
  | outOfOrder : mode = .eval → 0 < host.recordCost → (s.run host ⟨line, 0⟩).1 = .error (.fault .framesOutOfOrder) →
      Unanswered host mode s line .framesOutOfOrder
  | deep {v : Value} : mode = .eval → (s.run host ⟨line, 0⟩).1 = .ok v → Value.showLimit < v.nesting →
      Unanswered host mode s line .stackExhausted

/-- A line has one of its answers, or one of the three faults keeps it from one. -/
def Settled (host : Host) (mode : Mode) (s : Session) (line : List Char) : Except Fault (List Char) → Prop
  | .ok text => Answered host mode s line text
  | .error f => Unanswered host mode s line f

theorem settled_read (host : Host) (s : Session) (line : List Char) :
    Settled host .read s line (s.answer host .read line).1 := by
  simp only [Session.answer]
  cases hread : s.readIn host ⟨line, 0⟩ with
  | mk result t =>
    have hresult : (s.readIn host ⟨line, 0⟩).1 = result := congrArg Prod.fst hread
    cases result with
    | ok e => exact .canonical rfl hresult
    | error f =>
      obtain ⟨e, rfl⟩ | ⟨count, rfl, hlong⟩ := failure_of_readIn hresult
      · exact .readError hresult
      · exact .digits hresult hlong

theorem settled_eval (hs : s.Own) (host : Host) (line : List Char) :
    Settled host .eval s line (s.answer host .eval line).1 := by
  simp only [Session.answer]
  cases hrun : s.run host ⟨line, 0⟩ with
  | mk result u =>
    have hresult : (s.run host ⟨line, 0⟩).1 = result := congrArg Prod.fst hrun
    have hleft : (s.run host ⟨line, 0⟩).2 = u := congrArg Prod.snd hrun
    cases result with
    | ok v =>
      obtain ⟨text, htext⟩ := (hs.value hresult).display
      have hshown : v.display u.names = .ok text := hleft ▸ htext
      simp only [printed, Value.show?]
      by_cases hdeep : v.nesting > Value.showLimit
      · rw [if_pos hdeep]
        exact .deep rfl hresult hdeep
      · rw [if_neg hdeep, hshown]
        exact .value rfl hresult htext
    | error f =>
      cases f with
      | read e => exact .readError (readIn_of_run_error hresult)
      | eval e => exact .evalError rfl hresult
      | fault f =>
        rcases run_fault hs hresult with hread | ⟨rfl, hcost⟩
        · obtain ⟨e, he⟩ | ⟨count, hcount, hlong⟩ := failure_of_readIn hread
          · cases he
          · cases hcount
            exact .digits hread hlong
        · exact .outOfOrder rfl hcost hresult

theorem answer_settled (hs : s.Own) (host : Host) (mode : Mode) (line : List Char) :
    Settled host mode s line (s.answer host mode line).1 := by
  cases mode with
  | read => exact settled_read host s line
  | eval => exact settled_eval hs host line

/-- In every session of lines and for every line, reading has no fault but a number too
    long to convert, and evaluating what was read has none but frames left out of order, where
    records take stack. Every value that the session has can be printed, and no built-in
    has a fault on values such as the session has. A line is without an answer only if it has
    such a number, has left frames out of order, or has a value nested too deeply to show. -/
theorem internal_faults_unreachable (host : Host) (lines : List (List Char)) :
    let s := (fresh.answers host .eval lines).2
    (∀ src f, (s.readIn host src).1 = .error (.fault f) → ∃ n, f = .tooManyDigits n) ∧
    (∀ src e f, (s.readIn host src).1 = .ok e → ((s.readIn host src).2.eval host src e).1 = .error (.fault f) →
      f = .framesOutOfOrder ∧ 0 < host.recordCost) ∧
    (∀ frame ∈ s.frames.frames, ∀ entry ∈ frame.entries, entry.2.Own s.names) ∧
    (∀ src v, (s.run host src).1 = .ok v → v.Own (s.run host src).2.names) ∧
    (∀ (names : NameTable) (v : Value), v.Own names → ∃ text, v.display names = .ok text) ∧
    (∀ (names : NameTable) (b : Builtin) (args : List Value), (∀ v ∈ args, v.Own names) → ∀ f, (b.run names args).1 ≠ .fault f) ∧
    ∀ line f, (s.answer host .eval line).1 = .error f → Unanswered host .eval s line f := by
  intro s
  have hs : s.Own := own_fresh.answers host .eval lines
  refine ⟨?_, ?_, ?_, ?_, ?_, ?_, ?_⟩
  · intro src f hread
    obtain ⟨e, he⟩ | ⟨count, hcount, -⟩ := failure_of_readIn hread
    · cases he
    · cases hcount
      exact ⟨count, rfl⟩
  · intro src e f hread hfault
    rw [← run_of_readIn hread] at hfault
    refine (run_fault hs hfault).resolve_left fun hunread => ?_
    rw [hunread] at hread
    cases hread
  · exact fun frame hf entry he => hs.of_mem_frames hf he
  · exact fun src v => hs.value
  · exact fun names v hv => hv.display
  · exact fun names b args hargs => b.run_ne_fault hargs
  · intro line f hanswer
    have hsettled := answer_settled hs host .eval line
    rwa [hanswer] at hsettled

/-- With records shown, a `let` far inside another has no stack for the record of its frame,
    and the outer one finds that frame in the place of its own. -/
theorem answer_of_letsApart :
    (fresh.answer (CommandLine.host LogLevel.debug) .eval (letsApart 325)).1 = .error .framesOutOfOrder := by
  decide +kernel

end Session

end LineLisp
