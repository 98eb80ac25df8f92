/-
  LineLisp.Proofs.Console.Script — the line loop as the operations it asks of its
  streams, and what is left of them when one fails.

  The operations for an input are a list (`script`): for every line and for its end a
  prompt, a flush and a read, and after a line that is not blank the answer to it. A
  fault strikes the n-th operation of its kind. The loop goes through its script up to
  the first operation struck (`loop_ends`), so what it wrote are the chunks before
  that one and what its session has answered are the lines read before it
  (`run_follows_script`).
-/

import LineLisp.Console
import LineLisp.Proofs.Session.Answers

namespace LineLisp.Console

/-- What the loop asks of its streams. -/
inductive Operation
  | write (chunk : List Char)
  | flush
  /-- A read, of a line or of the end of the input. -/
  | read (line : Option (List Char))
  deriving DecidableEq

namespace Operation

def chunk? : Operation → Option (List Char)
  | .write chunk => some chunk
  | _ => none

def line? : Operation → Option (Option (List Char))
  | .read line => some line
  | _ => none

end Operation

/-- The chunks that operations write. -/
def chunks (ops : List Operation) : List (List Char) := ops.filterMap Operation.chunk?

/-- What operations read, the end of the input included. -/
def linesRead (ops : List Operation) : List (Option (List Char)) := ops.filterMap Operation.line?

/-- Of lines as they are read, those that are answered: not the blank ones, and without
    line ends. -/
def questions (lines : List (List Char)) : List (List Char) :=
  (lines.map Text.chomp).filter fun line => !Text.isBlankLine line

/-- The lines to answer among those that operations read. -/
def asked (ops : List Operation) : List (List Char) := questions ((linesRead ops).filterMap id)

/-- A prompt and a read. -/
def asking (prompt : List Char) (line : Option (List Char)) : List Operation :=
  [.write prompt, .flush, .read line]

/-- What the loop asks of streams that do not fail. A line without an answer ends it. -/
def script (host : Host) (mode : Mode) (prompt : List Char) (s : Session) : List (List Char) → List Operation
  | [] => asking prompt none
  | line :: rest =>
    asking prompt (some line) ++
      match s.respond host mode line with
      | none => script host mode prompt s rest
      | some (.ok text, s) => .write text :: script host mode prompt s rest
      | some (.error _, _) => []

/-- Each of the lines that a session answers has an answer. -/
def Answerable (host : Host) (mode : Mode) (s : Session) (lines : List (List Char)) : Prop :=
  ∀ reply ∈ (s.answers host mode (questions lines)).1, reply.isOk = true

instance (host : Host) (mode : Mode) (s : Session) (lines : List (List Char)) : Decidable (Answerable host mode s lines) :=
  inferInstanceAs (Decidable (∀ reply ∈ _, _))

/-- A fault strikes an operation after those done before: it is the n-th of its kind. -/
def Operation.Fails (faults : StreamFaults) (done : List Operation) : Operation → Prop
  | .write _ => faults.write = some ((chunks done).length + 1)
  | .flush => faults.flush = some (done.count .flush + 1)
  | .read _ => faults.read = some ((linesRead done).length + 1)

instance (faults : StreamFaults) (done : List Operation) : (op : Operation) → Decidable (op.Fails faults done)
  | .write _ => inferInstanceAs (Decidable (_ = _))
  | .flush => inferInstanceAs (Decidable (_ = _))
  | .read _ => inferInstanceAs (Decidable (_ = _))

/-- No fault strikes any of some operations, one after another after those done before. -/
def Passes (faults : StreamFaults) : (done ops : List Operation) → Prop
  | _, [] => True
  | done, op :: ops => ¬ op.Fails faults done ∧ Passes faults (done ++ [op]) ops

instance decidablePasses (faults : StreamFaults) : (done ops : List Operation) → Decidable (Passes faults done ops)
  | _, [] => .isTrue trivial
  | done, op :: ops =>
    have := decidablePasses faults (done ++ [op]) ops
    inferInstanceAs (Decidable (_ ∧ _))

/-! ## Lists of operations -/

theorem linesRead_append (ops more : List Operation) : linesRead (ops ++ more) = linesRead ops ++ linesRead more :=
  List.filterMap_append

theorem questions_append (lines more : List (List Char)) :
    questions (lines ++ more) = questions lines ++ questions more := by
  simp only [questions, List.map_append, List.filter_append]

theorem asked_append (ops more : List Operation) : asked (ops ++ more) = asked ops ++ asked more := by
  simp only [asked, linesRead_append, List.filterMap_append, questions_append]

/-- Before it has come to its end, an asking has nothing to answer. -/
theorem asked_of_asking {prompt : List Char} {line : Option (List Char)} {done rest : List Operation} {op : Operation}
    (h : asking prompt line = done ++ op :: rest) : asked done = [] := by
  match done with
  | [] => rfl
  | [_] =>
    injection h with h₁ _
    rw [← h₁]
    rfl
  | [_, _] =>
    injection h with h₁ h
    injection h with h₂ _
    rw [← h₁, ← h₂]
    rfl
  | _ :: _ :: _ :: done => simp [asking] at h

theorem passes_append {faults : StreamFaults} {done ops more : List Operation} :
    Passes faults done (ops ++ more) ↔ Passes faults done ops ∧ Passes faults (done ++ ops) more := by
  induction ops generalizing done with
  | nil => simp [Passes]
  | cons op ops ih => simp only [List.cons_append, Passes, ih, List.append_assoc, List.nil_append, and_assoc]

/-! ## What is answered -/

section

variable {host : Host} {mode : Mode} {s s' : Session} {line : List Char} {lines : List (List Char)} {reply : Except Fault (List Char)}

theorem questions_of_respond_none (h : s.respond host mode line = none) : questions [line] = [] := by
  simp only [Session.respond] at h
  split at h
  · simp [questions, *]
  · cases h

theorem questions_of_respond (h : s.respond host mode line = some (reply, s')) :
    questions [line] = [Text.chomp line] ∧ s.answer host mode (Text.chomp line) = (reply, s') := by
  simp only [Session.respond] at h
  split at h
  · cases h
  · exact ⟨by simp [questions, *], Option.some.inj h⟩

/-- The first of lines that all have answers is blank, or it is answered with a text; the
    others have answers after it. -/
theorem Answerable.cases (h : Answerable host mode s (line :: lines)) :
    (s.respond host mode line = none ∧ questions [line] = [] ∧ Answerable host mode s lines) ∨
      ∃ text s', s.respond host mode line = some (.ok text, s') ∧
        s.answers host mode (questions [line]) = ([.ok text], s') ∧ Answerable host mode s' lines := by
  have hlines : questions (line :: lines) = questions [line] ++ questions lines := questions_append [line] lines
  rw [Answerable, hlines, Session.answers_append, List.forall_mem_append] at h
  obtain ⟨hreply, hreplies⟩ := h
  cases hline : s.respond host mode line with
  | none =>
    have hblank := questions_of_respond_none hline
    rw [hblank] at hreplies
    exact Or.inl ⟨rfl, hblank, hreplies⟩
  | some x =>
    obtain ⟨answer, s'⟩ := x
    obtain ⟨hquestion, hanswer⟩ := questions_of_respond hline
    have hsession : s.answers host mode (questions [line]) = ([answer], s') := by
      rw [hquestion]
      simp only [Session.answers, hanswer]
    rw [hsession] at hreply hreplies
    cases answer with
    | error f => exact absurd (hreply _ (List.mem_singleton_self _)) Bool.false_ne_true
    | ok text => exact Or.inr ⟨text, s', rfl, hsession, hreplies⟩

end

/-- The session after so many operations, of one session that answers lines only. -/
def answered (host : Host) (mode : Mode) (s : Session) (done : List Operation) : Session :=
  (s.answers host mode (asked done)).2

theorem answered_append (host : Host) (mode : Mode) (s : Session) (ops more : List Operation) :
    answered host mode s (ops ++ more) = answered host mode (answered host mode s ops) more := by
  rw [answered, asked_append, Session.answers_append]
  rfl

theorem answered_asking (host : Host) (mode : Mode) (s : Session) (prompt line : List Char) :
    answered host mode s (asking prompt (some line)) = (s.answers host mode (questions [line])).2 := rfl

theorem answered_of_asking (host : Host) (mode : Mode) (s : Session) {prompt : List Char} {line : Option (List Char)}
    {done rest : List Operation} {op : Operation} (h : asking prompt line = done ++ op :: rest) :
    answered host mode s done = s := by
  rw [answered, asked_of_asking h]
  rfl

theorem answered_of_nothing_asked (host : Host) (mode : Mode) (s : Session) {prompt : List Char} {line : Option (List Char)}
    (hnothing : asked (asking prompt line) = []) {done : List Operation} (h : done <+: asking prompt line) :
    answered host mode s done = s := by
  obtain ⟨rest, hrest⟩ := h
  cases rest with
  | nil =>
    rw [List.append_nil] at hrest
    rw [answered, hrest, hnothing]
    rfl
  | cons op rest => exact answered_of_asking host mode s hrest.symm

/-! ## One operation -/

variable {host : Host} {faults : StreamFaults} {mode : Mode} {prompt : List Char} {done ops more : List Operation} {c : Console}

/-- The operations done so far, as a console counts them. -/
structure Did (done : List Operation) (c : Console) : Prop where
  written : c.written.toList = chunks done
  writes : c.writes = (chunks done).length
  flushes : c.flushes = done.count .flush
  reads : c.reads = (linesRead done).length

theorem start_did (s : Session) : Did [] (start s) := ⟨rfl, rfl, rfl, rfl⟩

/-- The end of a run of `ops` with a result: each was done, or all before the first that a
    fault strikes; `left` says what session is left after so many of them. -/
inductive Ends {α : Type} (faults : StreamFaults) (left : List Operation → Session) (done ops : List Operation) (a : α) :
    Except Halt α × Console → Prop
  | all {c : Console} (passes : Passes faults done ops) (did : Did (done ++ ops) c) (session : c.session = left ops) :
      Ends faults left done ops a (.ok a, c)
  | struck (before rest : List Operation) (op : Operation) {c : Console} (cut : ops = before ++ op :: rest)
      (passes : Passes faults done before) (fails : op.Fails faults (done ++ before))
      (written : c.written.toList = chunks (done ++ before)) (session : c.session = left before) :
      Ends faults left done ops a (.error (.failed faults.message), c)

theorem modify_run (f : Console → Console) (c : Console) : (modify f : ConsoleM PUnit) c = (.ok (), f c) := rfl

theorem get_run (c : Console) : (get : ConsoleM Console) c = (.ok c, c) := rfl

theorem pure_run {α : Type} (a : α) (c : Console) : (pure a : ConsoleM α) c = (.ok a, c) := rfl

theorem throw_run {α : Type} (h : Halt) (c : Console) : (throw h : ConsoleM α) c = (.error h, c) := rfl

theorem discard_eq {α : Type} (m : ConsoleM α) : discard m = m >>= fun _ => pure () := by
  rw [Functor.discard, LawfulFunctor.map_const]
  exact map_eq_pure_bind _ m

theorem loop_cons (host : Host) (faults : StreamFaults) (mode : Mode) (prompt : List Char) (line : InputLine)
    (rest : List InputLine) :
    loop host faults mode prompt (line :: rest)
      = (streams faults).turn host mode prompt (readNext faults (some line)) >>= fun _ =>
          loop host faults mode prompt rest := by
  rw [loop, discard_eq, bind_assoc]
  simp only [pure_bind]

theorem write_run (hencode : faults.asciiOnly = false) (chunk : List Char) (c : Console) :
    write faults chunk c
      = if faults.write = some (c.writes + 1) then (.error (.failed faults.message), { c with writes := c.writes + 1 })
        else (.ok (), { c with writes := c.writes + 1, written := c.written.push chunk }) := by
  by_cases h : faults.write = some (c.writes + 1)
  all_goals simp [write, Eval.bind_run, modify_run, get_run, throw_run, hencode, h]

theorem flush_run (c : Console) :
    flush faults c
      = if faults.flush = some (c.flushes + 1) then (.error (.failed faults.message), { c with flushes := c.flushes + 1 })
        else (.ok (), { c with flushes := c.flushes + 1 }) := by
  by_cases h : faults.flush = some (c.flushes + 1)
  all_goals simp [flush, Eval.bind_run, modify_run, get_run, pure_run, throw_run, h]

theorem readNext_run (line : Option (List Char)) (c : Console) :
    readNext faults (line.map .text) c
      = if faults.read = some (c.reads + 1) then (.error (.failed faults.message), { c with reads := c.reads + 1 })
        else (.ok line, { c with reads := c.reads + 1 }) := by
  by_cases h : faults.read = some (c.reads + 1)
  all_goals cases line <;> simp [readNext, Eval.bind_run, modify_run, get_run, pure_run, throw_run, h]

/-- One operation is struck, or it is done. -/
theorem Ends.one {α : Type} {a : α} {s : Session} {op : Operation} {c₁ c₂ : Console}
    (hstruck : c₁.written.toList = chunks done ∧ c₁.session = s) (hdone : Did (done ++ [op]) c₂ ∧ c₂.session = s) :
    Ends faults (fun _ => s) done [op] a
      (if op.Fails faults done then (.error (.failed faults.message), c₁) else (.ok a, c₂)) := by
  by_cases h : op.Fails faults done
  · rw [if_pos h]
    exact .struck [] [] op rfl trivial ((List.append_nil done).symm ▸ h)
      (hstruck.1.trans (congrArg chunks (List.append_nil done).symm)) hstruck.2
  · rw [if_neg h]
    exact .all ⟨h, trivial⟩ hdone.1 hdone.2

theorem write_ends (hencode : faults.asciiOnly = false) (hc : Did done c) (chunk : List Char) :
    Ends faults (fun _ => c.session) done [.write chunk] () (write faults chunk c) := by
  rw [write_run hencode, hc.writes]
  refine .one ⟨hc.written, rfl⟩ ⟨⟨?_, ?_, ?_, ?_⟩, rfl⟩
  all_goals simp [hc.written, hc.flushes, hc.reads, chunks, linesRead, Operation.chunk?, Operation.line?]

theorem flush_ends (hc : Did done c) : Ends faults (fun _ => c.session) done [.flush] () (flush faults c) := by
  rw [flush_run, hc.flushes]
  refine .one ⟨hc.written, rfl⟩ ⟨⟨?_, ?_, ?_, ?_⟩, rfl⟩
  all_goals simp [hc.written, hc.writes, hc.reads, chunks, linesRead, Operation.chunk?, Operation.line?]

theorem read_ends (hc : Did done c) (line : Option (List Char)) :
    Ends faults (fun _ => c.session) done [.read line] line (readNext faults (line.map .text) c) := by
  rw [readNext_run, hc.reads]
  refine .one ⟨hc.written, rfl⟩ ⟨⟨?_, ?_, ?_, ?_⟩, rfl⟩
  all_goals simp [hc.written, hc.writes, hc.flushes, chunks, linesRead, Operation.chunk?, Operation.line?]

/-! ## One operation after another -/

/-- Two runs, one after another. Of the first one's sessions only those before its end count. -/
theorem Ends.bind {α β : Type} {a : α} {b : β} {left left₁ left₂ : List Operation → Session} {m : ConsoleM α}
    {n : α → ConsoleM β} (hm : Ends faults left₁ done ops a (m c))
    (hn : ∀ c, Did (done ++ ops) c → c.session = left₁ ops → Ends faults left₂ (done ++ ops) more b (n a c))
    (hleft₁ : ∀ before op rest, ops = before ++ op :: rest → left₁ before = left before)
    (hleft₂ : ∀ before, before <+: more → left₂ before = left (ops ++ before)) :
    Ends faults left done (ops ++ more) b ((m >>= n) c) := by
  rw [Eval.bind_run]
  generalize m c = x at hm
  cases hm with
  | @struck before rest op c cut passes fails written session =>
    refine .struck before (rest ++ more) op ?_ passes fails written (session.trans (hleft₁ before op rest cut))
    rw [cut, List.append_assoc, List.cons_append]
  | @all c passes did session =>
    have hn := hn c did session
    show Ends faults left done (ops ++ more) b (n a c)
    generalize n a c = y at hn
    cases hn with
    | all passes₂ did₂ session₂ =>
      refine .all (passes_append.mpr ⟨passes, passes₂⟩) ?_ (session₂.trans (hleft₂ more (List.prefix_refl more)))
      rwa [← List.append_assoc]
    | @struck before rest op c cut passes₂ fails written session₂ =>
      refine .struck (ops ++ before) rest op ?_ (passes_append.mpr ⟨passes, passes₂⟩) ?_ ?_ ?_
      · rw [cut, List.append_assoc]
      · rwa [← List.append_assoc]
      · rwa [← List.append_assoc]
      · exact session₂.trans (hleft₂ before ⟨op :: rest, cut.symm⟩)

/-- A run whose result becomes another without an operation. -/
theorem Ends.bind_nil {α β : Type} {a : α} {b : β} {left : List Operation → Session} {m : ConsoleM α}
    {n : α → ConsoleM β} (hm : Ends faults left done ops a (m c)) (hn : ∀ c, n a c = (.ok b, c)) :
    Ends faults left done ops b ((m >>= n) c) := by
  rw [Eval.bind_run]
  generalize m c = x at hm
  cases hm with
  | struck before rest op cut passes fails written session => exact .struck before rest op cut passes fails written session
  | @all c passes did session =>
    show Ends faults left done ops b (n a c)
    rw [hn]
    exact .all passes did session

theorem Ends.congr {α : Type} {a : α} {left left' : List Operation → Session} {x : Except Halt α × Console}
    (h : Ends faults left done ops a x) (hleft : ∀ before, before <+: ops → left before = left' before) :
    Ends faults left' done ops a x := by
  cases h with
  | all passes did session => exact .all passes did (session.trans (hleft ops (List.prefix_refl ops)))
  | @struck before rest op _ cut passes fails written session =>
    exact .struck before rest op cut passes fails written (session.trans (hleft before ⟨op :: rest, cut.symm⟩))

theorem ask_ends (prompt : List Char) (hencode : faults.asciiOnly = false) (hc : Did done c) (line : Option (List Char)) :
    Ends faults (fun _ => c.session) done (asking prompt line) line
      ((streams faults).ask prompt (readNext faults (line.map .text)) c) := by
  show Ends faults _ done ([.write prompt] ++ ([.flush] ++ [.read line])) line _
  refine (write_ends hencode hc prompt).bind (fun c₁ hc₁ hs₁ => ?_) (fun _ _ _ _ => rfl) (fun _ _ => rfl)
  refine (flush_ends hc₁).bind (fun c₂ hc₂ hs₂ => ?_) (fun _ _ _ _ => hs₁) (fun _ _ => rfl)
  have hs : c₂.session = c.session := hs₂.trans hs₁
  rw [← hs]
  exact read_ends hc₂ line

/-! ## A turn of the loop -/

/-- The turn with which the input ends. -/
theorem last_turn_ends (prompt : List Char) (hencode : faults.asciiOnly = false) (hc : Did done c) :
    Ends faults (fun _ => c.session) done (asking prompt none) false
      ((streams faults).turn host mode prompt (readNext faults none) c) :=
  (ask_ends prompt hencode hc none).bind_nil fun _ => rfl

theorem session_run (c : Console) : (streams faults).session c = (.ok c.session, c) := rfl

theorem reply_of_blank {line : List Char} (h : c.session.respond host mode line = none) :
    (streams faults).reply host mode line c = (.ok (), c) := by
  rw [Streams.reply, Eval.bind_run, session_run]
  simp only [h]
  rfl

theorem reply_of_answer {line text : List Char} {s : Session} (h : c.session.respond host mode line = some (.ok text, s)) :
    (streams faults).reply host mode line c = write faults text { c with session := s } := by
  rw [Streams.reply, Eval.bind_run, session_run]
  simp only [h]
  rfl

theorem reply_of_fault {line : List Char} {f : Fault} {s : Session}
    (h : c.session.respond host mode line = some (.error f, s)) :
    (streams faults).reply host mode line c = (.error (.escaped f), { c with session := s }) := by
  rw [Streams.reply, Eval.bind_run, session_run]
  simp only [h]
  rfl

/-- A turn with a blank line. -/
theorem blank_turn_ends (prompt : List Char) (hencode : faults.asciiOnly = false) (hc : Did done c) {line : List Char}
    (hline : c.session.respond host mode line = none) :
    Ends faults (fun _ => c.session) done (asking prompt (some line)) true
      ((streams faults).turn host mode prompt (readNext faults (some (.text line))) c) := by
  rw [← List.append_nil (asking prompt (some line))]
  refine (ask_ends prompt hencode hc (some line)).bind (fun c₁ hc₁ hs₁ => ?_) (fun _ _ _ _ => rfl) (fun _ _ => rfl)
  show Ends faults _ _ [] true (((streams faults).reply host mode line >>= fun _ => pure true) c₁)
  rw [Eval.bind_run, reply_of_blank (hs₁ ▸ hline)]
  refine .all trivial ?_ hs₁
  rwa [List.append_nil]

/-- A turn with a line that is not blank: asked, the line is answered before the answer is
    written. -/
theorem turn_ends (prompt : List Char) (hencode : faults.asciiOnly = false) (hc : Did done c) {line text : List Char} {s : Session}
    (hline : c.session.respond host mode line = some (.ok text, s))
    (hanswer : c.session.answers host mode (questions [line]) = ([.ok text], s)) :
    Ends faults (answered host mode c.session) done (asking prompt (some line) ++ [.write text]) true
      ((streams faults).turn host mode prompt (readNext faults (some (.text line))) c) := by
  have hanswered (before : List Operation) (hbefore : before <+: [.write text]) :
      answered host mode c.session (asking prompt (some line) ++ before) = s := by
    have hnone : asked before = [] := by
      obtain ⟨rest, hrest⟩ := hbefore
      cases before with
      | nil => rfl
      | cons op before =>
        obtain ⟨rfl, hnil⟩ := List.cons.inj hrest
        obtain ⟨rfl, -⟩ := List.append_eq_nil_iff.mp hnil
        rfl
    rw [answered_append, answered_asking, hanswer, answered, hnone]
    rfl
  refine (ask_ends prompt hencode hc (some line)).bind (fun c₁ hc₁ hs₁ => ?_)
    (fun before op rest h => (answered_of_asking host mode c.session h).symm) (fun before h => (hanswered before h).symm)
  show Ends faults _ _ _ true (((streams faults).reply host mode line >>= fun _ => pure true) c₁)
  have hwrite : Ends faults (fun _ => s) (done ++ asking prompt (some line)) [.write text] ()
      ((streams faults).reply host mode line c₁) := by
    rw [reply_of_answer (hs₁ ▸ hline)]
    exact write_ends (c := { c₁ with session := s }) hencode ⟨hc₁.written, hc₁.writes, hc₁.flushes, hc₁.reads⟩ text
  exact hwrite.bind_nil fun _ => rfl

/-- A turn with the first of lines that all have answers goes through the operations that the
    script begins with; the script of the other lines follows, in the session that is left. -/
theorem turn_of_answerable (prompt : List Char) (hencode : faults.asciiOnly = false) (hc : Did done c) {line : List Char}
    {lines : List (List Char)} (h : Answerable host mode c.session (line :: lines)) :
    ∃ ops, Ends faults (answered host mode c.session) done ops true
        ((streams faults).turn host mode prompt (readNext faults (some (.text line))) c) ∧
      answered host mode c.session ops = (c.session.answers host mode (questions [line])).2 ∧
      script host mode prompt c.session (line :: lines)
        = ops ++ script host mode prompt (answered host mode c.session ops) lines ∧
      Answerable host mode (answered host mode c.session ops) lines := by
  rcases h.cases with ⟨hline, hblank, hrest⟩ | ⟨text, s, hline, hanswer, hrest⟩
  · have hnothing : asked (asking prompt (some line)) = [] := hblank
    have hleft {before : List Operation} (hbefore : before <+: asking prompt (some line)) :
        answered host mode c.session before = c.session := answered_of_nothing_asked host mode c.session hnothing hbefore
    have hends := (blank_turn_ends prompt hencode hc hline).congr fun before hbefore => (hleft hbefore).symm
    refine ⟨_, hends, rfl, ?_, ?_⟩
    · rw [hleft (List.prefix_refl _)]
      simp only [script, hline]
    · rwa [hleft (List.prefix_refl _)]
  · have hleft : answered host mode c.session (asking prompt (some line) ++ [.write text]) = s := congrArg Prod.snd hanswer
    refine ⟨_, turn_ends prompt hencode hc hline hanswer, rfl, ?_, ?_⟩
    · rw [hleft, ← List.append_cons]
      simp only [script, hline]
    · rwa [hleft]

/-! ## The loop -/

/-- The loop goes through its script, up to the first operation that a fault strikes. -/
theorem loop_ends (prompt : List Char) (hencode : faults.asciiOnly = false) (hc : Did done c) {lines : List (List Char)}
    (h : Answerable host mode c.session lines) :
    Ends faults (answered host mode c.session) done (script host mode prompt c.session lines) ()
      (loop host faults mode prompt (lines.map .text) c) := by
  induction lines generalizing done c with
  | nil =>
    have hlast : Ends faults (fun _ => c.session) done (asking prompt none) ()
        (discard ((streams faults).turn host mode prompt (readNext faults none)) c) := by
      rw [discard_eq]
      exact (last_turn_ends prompt hencode hc).bind_nil fun _ => rfl
    exact hlast.congr fun before hbefore => (answered_of_nothing_asked host mode c.session rfl hbefore).symm
  | cons line lines ih =>
    obtain ⟨ops, hturn, -, hscript, hrest⟩ := turn_of_answerable prompt hencode hc h
    rw [List.map_cons, loop_cons, hscript]
    refine hturn.bind (fun c₁ hc₁ hs₁ => ?_) (fun _ _ _ _ => rfl)
      (fun before _ => (answered_append host mode c.session _ before).symm)
    rw [← hs₁] at hrest ⊢
    exact ih hc₁ hrest

/-! ## A whole run -/

theorem linesRead_script {s : Session} {lines : List (List Char)} (h : Answerable host mode s lines) :
    linesRead (script host mode prompt s lines) = lines.map some ++ [none] := by
  induction lines generalizing s with
  | nil => rfl
  | cons line lines ih =>
    rcases h.cases with ⟨hline, -, hrest⟩ | ⟨text, s', hline, -, hrest⟩
    all_goals
      simp only [script, hline, linesRead_append]
      exact congrArg (some line :: ·) (ih hrest)

/-- The loop on an input whose lines all have answers. Its operations are a prompt, a
    flush and a read for each line and for the end, and after every line that is not
    blank the answer to it. If no fault strikes them the exit code is 0 and the output is
    all the chunks. Otherwise the exit code is 1, the output is the chunks before the
    first operation struck, and the session has answered the lines read before that one. -/
theorem run_follows_script (host : Host) (faults : StreamFaults) (mode : Mode) (prompt : List Char) (s : Session)
    (lines : List (List Char)) (hencode : faults.asciiOnly = false) (h : Answerable host mode s lines) :
    let ops := script host mode prompt s lines
    linesRead ops = lines.map some ++ [none] ∧
    ((Passes faults [] ops ∧
        runIn host faults mode prompt s (lines.map .text)
          = ⟨.ok 0, (chunks ops).flatten, [], (s.answers host mode (questions lines)).2⟩) ∨
      ∃ done op rest, ops = done ++ op :: rest ∧ Passes faults [] done ∧ op.Fails faults done ∧
        runIn host faults mode prompt s (lines.map .text)
          = ⟨.ok 1, (chunks done).flatten, if faults.errorStream then [] else faults.message.toList ++ ['\n'],
              (s.answers host mode (asked done)).2⟩) := by
  intro ops
  have hreads : linesRead ops = lines.map some ++ [none] := linesRead_script h
  refine ⟨hreads, ?_⟩
  have hasked : asked ops = questions lines := by
    rw [asked, hreads, List.filterMap_append, List.filterMap_map]
    simp
  have hends := loop_ends prompt hencode (start_did s) h
  unfold runIn
  generalize loop host faults mode prompt (lines.map .text) (start s) = x at hends
  cases hends with
  | @all c passes did session =>
    have hsession : c.session = (s.answers host mode (questions lines)).2 := by
      rw [← hasked]
      exact session
    exact Or.inl ⟨passes, by simp only [finish, did.written, hsession]; rfl⟩
  | @struck done rest op c cut passes fails written session =>
    refine Or.inr ⟨done, op, rest, cut, passes, fails, ?_⟩
    simp only [finish, written, session]
    rfl

/-- The last of three lines is answered, and writing its answer fails. -/
theorem run_follows_script_to_write :
    let faults : StreamFaults := ⟨some 5, none, none, "disk full", false, false⟩
    let lines := ["(def x 7)\n".toList, " \n".toList, "x\r\n".toList]
    let ops := script Hosts.none .eval Console.prompt Session.fresh lines
    ∃ done op rest, ops = done ++ op :: rest ∧ Passes faults [] done ∧ op.Fails faults done ∧
      run faults .eval Console.prompt Session.fresh (lines.map .text)
        = ⟨.ok 1, (chunks done).flatten, "disk full".toList ++ ['\n'],
            (Session.fresh.answers Hosts.none .eval (asked done)).2⟩ := by
  intro faults lines ops
  have hanswerable : Answerable Hosts.none .eval Session.fresh lines := by decide +kernel
  have hfault : ¬ Passes faults [] (script Hosts.none .eval Console.prompt Session.fresh lines) := by decide +kernel
  obtain ⟨-, ⟨hpasses, -⟩ | hstruck⟩ := run_follows_script Hosts.none faults .eval Console.prompt Session.fresh lines rfl hanswerable
  · exact absurd hpasses hfault
  · exact hstruck

end LineLisp.Console
