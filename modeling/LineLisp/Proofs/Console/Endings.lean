/-
  LineLisp.Proofs.Console.Endings — what ends a run on streams that do not fail.

  A session that only ever answered lines answers the next one with its canonical text,
  its printed value or its error, or it meets one of three faults: a number of too many
  digits, frames left out of order where records take stack, or a value nested too deeply to
  show. The loop catches none. So a run answers all lines and ends with the input, or it
  answers the lines before the first that meets a fault and escapes there, with what was
  written (`run_ends`). A line that is a number of too many digits does it whatever the
  session is (`run_of_long_number`).
-/

import LineLisp.Proofs.Console.Script
import LineLisp.Proofs.Session.Faults

namespace LineLisp

namespace Console

open Session (Answered Unanswered)

variable {host : Host} {mode : Mode} {prompt : List Char} {s t : Session} {line : List Char}
  {before lines : List (List Char)} {f : Fault}

/-! ## The first line without an answer -/

/-- Each of the lines to answer is answered, in the session that the ones before it leave. -/
def AllAnswered (host : Host) (mode : Mode) (s : Session) (lines : List (List Char)) : Prop :=
  ∀ before line after, questions lines = before ++ line :: after →
    ∃ text, ((s.answers host mode before).2.answer host mode line).1 = .ok text ∧
      Answered host mode (s.answers host mode before).2 line text

theorem Answerable.allAnswered (h : Answerable host mode s lines) (hs : s.Own) : AllAnswered host mode s lines := by
  intro before line after hlines
  have hsettled := Session.answer_settled (hs.answers host mode before) host mode line
  rw [Answerable, hlines, Session.answers_append, List.forall_mem_append] at h
  have hreply : ((s.answers host mode before).2.answer host mode line).1.isOk = true :=
    h.2 _ List.mem_cons_self
  generalize ((s.answers host mode before).2.answer host mode line).1 = reply at hreply hsettled
  cases reply with
  | ok text => exact ⟨text, rfl, hsettled⟩
  | error f => cases hreply

theorem questions_cons (line : List Char) (lines : List (List Char)) :
    questions (line :: lines) = questions [line] ++ questions lines :=
  questions_append [line] lines

theorem answerable_nil : Answerable host mode s [] := fun _ h => nomatch h

theorem Answerable.cons_blank (hline : s.respond host mode line = none) (h : Answerable host mode s lines) :
    Answerable host mode s (line :: lines) := by
  rw [Answerable, questions_cons, questions_of_respond_none hline]
  exact h

theorem answers_questions {reply : Except Fault (List Char)} (hline : s.respond host mode line = some (reply, t)) :
    s.answers host mode (questions (line :: lines))
      = (reply :: (t.answers host mode (questions lines)).1, (t.answers host mode (questions lines)).2) := by
  obtain ⟨hquestion, hanswer⟩ := questions_of_respond hline
  rw [questions_cons, hquestion]
  show Session.answers host mode s (Text.chomp line :: questions lines) = _
  simp only [Session.answers, hanswer]

theorem Answerable.cons {text : List Char} (hline : s.respond host mode line = some (.ok text, t))
    (h : Answerable host mode t lines) : Answerable host mode s (line :: lines) := by
  rw [Answerable, answers_questions hline]
  exact List.forall_mem_cons.mpr ⟨rfl, h⟩

/-- If not all lines can be answered, there is a first one that cannot. -/
theorem exists_first_unanswered (h : ¬ Answerable host mode s lines) :
    ∃ before line rest f t, lines = before ++ line :: rest ∧ Answerable host mode s before ∧
      (s.answers host mode (questions before)).2.respond host mode line = some (.error f, t) := by
  induction lines generalizing s with
  | nil => exact absurd answerable_nil h
  | cons line lines ih =>
    cases hline : s.respond host mode line with
    | none =>
      obtain ⟨before, line', rest, f, t, rfl, hbefore, hrespond⟩ := ih fun hlines => h (hlines.cons_blank hline)
      refine ⟨line :: before, line', rest, f, t, rfl, hbefore.cons_blank hline, ?_⟩
      rw [questions_cons, questions_of_respond_none hline]
      exact hrespond
    | some x =>
      obtain ⟨reply, s'⟩ := x
      cases reply with
      | error f => exact ⟨[], line, lines, f, s', rfl, answerable_nil, hline⟩
      | ok text =>
        obtain ⟨before, line', rest, f, t, rfl, hbefore, hrespond⟩ := ih fun hlines => h (hlines.cons hline)
        refine ⟨line :: before, line', rest, f, t, rfl, hbefore.cons hline, ?_⟩
        rw [answers_questions hline]
        exact hrespond

/-! ## The loop -/

theorem passes_none (done ops : List Operation) : Passes .none done ops := by
  induction ops generalizing done with
  | nil => trivial
  | cons op ops ih => exact ⟨by cases op <;> exact nofun, ih _⟩

/-- On streams that do not fail every operation is done. -/
theorem Ends.all_done {α : Type} {left : List Operation → Session} {done ops : List Operation} {a : α}
    {x : Except Halt α × Console} (h : Ends .none left done ops a x) :
    ∃ c, x = (.ok a, c) ∧ Did (done ++ ops) c ∧ c.session = left ops := by
  cases h with
  | all _ did session => exact ⟨_, rfl, did, session⟩
  | struck before rest op _ _ fails => exact absurd fails (passes_none (done ++ before) [op]).1

theorem asked_script (h : Answerable host mode s lines) : asked (script host mode prompt s lines) = questions lines := by
  rw [asked, linesRead_script h, List.filterMap_append, List.filterMap_map]
  simp

/-- Lines that all have answers are answered to the end. -/
theorem run_of_answerable (prompt : List Char) (h : Answerable host mode s lines) :
    runIn host .none mode prompt s (lines.map .text)
      = ⟨.ok 0, (chunks (script host mode prompt s lines)).flatten, [], (s.answers host mode (questions lines)).2⟩ := by
  have hends : Ends .none (answered host mode s) [] (script host mode prompt s lines) ()
      (loop host .none mode prompt (lines.map .text) (start s)) := loop_ends prompt rfl (start_did s) h
  obtain ⟨c, hloop, hdid, hsession⟩ := hends.all_done
  rw [answered, asked_script h] at hsession
  rw [runIn, hloop]
  simp only [finish, hdid.written, hsession, List.nil_append]

/-- The turn with a line that meets a fault. The line is asked for like the end of the input. -/
theorem turn_of_fault {done : List Operation} {c : Console} (prompt : List Char) (hc : Did done c)
    (hline : c.session.respond host mode line = some (.error f, t)) :
    ∃ c', (streams .none).turn host mode prompt (readNext .none (some (.text line))) c = (.error (.escaped f), c') ∧
      c'.written.toList = chunks (done ++ asking prompt none) ∧ c'.session = t := by
  obtain ⟨c₁, hask, hdid, hsession⟩ := (ask_ends prompt rfl hc (some line)).all_done
  have hreply : (streams .none).reply host mode line c₁ = (.error (.escaped f), { c₁ with session := t }) :=
    reply_of_fault (hsession ▸ hline)
  refine ⟨{ c₁ with session := t }, ?_, ?_, rfl⟩
  · rw [Streams.turn, Eval.bind_run]
    simp only [Option.map_some] at hask
    simp only [hask, Eval.bind_run, hreply]
  · refine hdid.written.trans ?_
    simp only [chunks, List.filterMap_append]
    rfl

/-- A line that meets a fault ends the loop, whatever comes after it. -/
theorem loop_of_fault {done : List Operation} {c : Console} (prompt : List Char) (hc : Did done c)
    (hbefore : Answerable host mode c.session before)
    (hline : (c.session.answers host mode (questions before)).2.respond host mode line = some (.error f, t))
    (rest : List InputLine) :
    ∃ c', loop host .none mode prompt (before.map .text ++ .text line :: rest) c = (.error (.escaped f), c') ∧
      c'.written.toList = chunks (done ++ script host mode prompt c.session before) ∧ c'.session = t := by
  induction before generalizing done c with
  | nil =>
    obtain ⟨c', hturn, hwritten, hsession⟩ := turn_of_fault prompt hc hline
    refine ⟨c', ?_, hwritten, hsession⟩
    rw [List.map_nil, List.nil_append, loop_cons, Eval.bind_run, hturn]
  | cons first before ih =>
    have hencode : StreamFaults.none.asciiOnly = false := rfl
    obtain ⟨ops, hends, hleft, hscript, hrest⟩ := turn_of_answerable prompt hencode hc hbefore
    obtain ⟨c₁, hturn, hdid, hsession⟩ := hends.all_done
    rw [questions_cons, Session.answers_append] at hline
    rw [← hsession] at hleft hscript hrest
    obtain ⟨c', hloop, hwritten, hend⟩ := ih hdid hrest (hleft ▸ hline)
    refine ⟨c', ?_, ?_, hend⟩
    · rw [List.map_cons, List.cons_append, loop_cons, Eval.bind_run, hturn]
      exact hloop
    · rw [hwritten, hscript, List.append_assoc]

theorem run_of_fault (prompt : List Char) (hbefore : Answerable host mode s before)
    (hline : (s.answers host mode (questions before)).2.respond host mode line = some (.error f, t))
    (rest : List InputLine) :
    runIn host .none mode prompt s (before.map .text ++ .text line :: rest)
      = ⟨.error f, (chunks (script host mode prompt s before)).flatten, [], t⟩ := by
  obtain ⟨c, hloop, hwritten, hsession⟩ := loop_of_fault prompt (start_did s) hbefore hline rest
  rw [runIn, hloop]
  simp only [finish, hwritten, hsession]
  rfl

/-! ## How runs end -/

/-- How a run of a fresh session ends: at the end of the input, with all lines answered;
    or at a fault, with the lines before it answered and one more prompt. -/
inductive Ending (host : Host) (mode : Mode) (prompt : List Char) (lines : List (List Char)) : Transcript → Prop
  | atEnd : AllAnswered host mode Session.fresh lines →
      Ending host mode prompt lines ⟨.ok 0, (chunks (script host mode prompt Session.fresh lines)).flatten, [],
        (Session.fresh.answers host mode (questions lines)).2⟩
  | escaped {before rest : List (List Char)} {line : List Char} {s t : Session} {f : Fault} :
      lines = before ++ line :: rest → AllAnswered host mode Session.fresh before →
      s = (Session.fresh.answers host mode (questions before)).2 → s.respond host mode line = some (.error f, t) →
      Unanswered host mode s (Text.chomp line) f →
      Ending host mode prompt lines ⟨.error f, (chunks (script host mode prompt Session.fresh before)).flatten, [], t⟩

/-- For all lines and on streams that do not fail, a session answers every line that is
    not blank with its canonical text, its printed value or its error, writes nothing but
    prompts and answers and ends at the end of the input with exit code 0; unless it comes
    to a number of too many digits, to frames left out of order where records take stack, or
    to a value nested too deeply to show. -/
theorem run_ends (host : Host) (mode : Mode) (prompt : List Char) (lines : List (List Char)) :
    Ending host mode prompt lines (runIn host .none mode prompt Session.fresh (lines.map .text)) := by
  by_cases h : Answerable host mode Session.fresh lines
  · rw [run_of_answerable prompt h]
    exact .atEnd (h.allAnswered Session.own_fresh)
  · obtain ⟨before, line, rest, f, t, rfl, hbefore, hline⟩ := exists_first_unanswered h
    rw [List.map_append, List.map_cons, run_of_fault prompt hbefore hline]
    refine .escaped rfl (hbefore.allAnswered Session.own_fresh) rfl hline ?_
    obtain ⟨-, hanswer⟩ := questions_of_respond hline
    have hsettled := Session.answer_settled (Session.own_fresh.answers host mode (questions before)) host mode
      (Text.chomp line)
    rwa [hanswer] at hsettled

/-! ## A number that ends a session -/

theorem chomp_of_isWord {word : List Char} (h : Lexeme.IsWord word) : Text.chomp (word ++ ['\n']) = word := by
  obtain ⟨-, -, -, -, hrunning⟩ := h
  have hkept : ∀ d ∈ word.reverse, (d == '\r' || d == '\n') = false := by
    intro d hd
    have hr := hrunning d (List.mem_reverse.mp hd)
    rw [Bool.or_eq_false_iff, beq_eq_false_iff_ne, beq_eq_false_iff_ne]
    constructor
    all_goals
      rintro rfl
      exact absurd hr (by decide)
  have hdrop : word.reverse.dropWhile (fun c => c == '\r' || c == '\n') = word.reverse := by
    cases hw : word.reverse with
    | nil => rfl
    | cons d ds => exact List.dropWhile_cons_of_neg (by simp [hkept d (hw ▸ List.mem_cons_self)])
  have hreverse : (word ++ ['\n']).reverse = '\n' :: word.reverse := List.reverse_concat
  rw [Text.chomp, hreverse, List.dropWhile_cons_of_pos (by decide), hdrop, List.reverse_reverse]

theorem isBlankLine_of_isWord {word : List Char} (h : Lexeme.IsWord word) : Text.isBlankLine word = false := by
  obtain ⟨c, cs, rfl, -, hrunning⟩ := h
  obtain ⟨hseparator, -⟩ := Lexeme.not_special_of_isRunning (hrunning c List.mem_cons_self)
  have hblank : Text.isBlank c = false := (Bool.or_eq_false_iff.mp hseparator).1
  simp [Text.isBlankLine, hblank]

section

variable {digits : List Char} {n : Int}

theorem readIn_of_long_number (host : Host) (s : Session) (h : Numeral line digits n) (hlong : maxDigits < digits.length) :
    (s.readIn host ⟨line, 0⟩).1 = .error (.fault (.tooManyDigits digits.length)) := by
  have hlexemes : Source.lexemes ⟨line, 0⟩ = [⟨.word, line, 0⟩] := by
    have hcut := Lexeme.ofChars_append_of_cut (Lexeme.cut_of_isWord (Lexeme.isWord_of_numeral h)) 0
    rwa [List.append_nil, Lexeme.ofChars] at hcut
  have htoken : Lexeme.token s.names ⟨.word, line, 0⟩ = .error (.tooManyDigits digits.length) := by
    have hreserved := Lexeme.reserved?_eq_none_of_beginsNumeral (beginsNumeral_of_numeral h)
    obtain ⟨hnumber, rfl, rfl⟩ := numeral_iff.mp h
    simp only [Lexeme.token, Lexeme.wordToken, hreserved, if_pos hnumber, if_pos hlong]
  have hrecorded : Source.unrecorded? ⟨line, 0⟩ host.recordCost s.names = none := by
    simp only [Source.unrecorded?, hlexemes, Reader.unrecorded?, htoken]
  have hread : (Source.read ⟨line, 0⟩ s.names).1 = .error (.tooManyDigits digits.length) := by
    rw [Source.read, hlexemes, Reader.readFrom, htoken]
  simp only [Session.readIn, hrecorded, Session.read, hread]
  rfl

/-- A line that is a number of too many digits ends the run of any session, in either
    mode and whatever comes after it, with nothing written but the prompt. -/
theorem run_of_long_number (host : Host) (mode : Mode) (prompt : List Char) (s : Session) (h : Numeral line digits n)
    (hlong : maxDigits < digits.length) (rest : List InputLine) :
    let transcript := runIn host .none mode prompt s (.text (line ++ ['\n']) :: rest)
    transcript.outcome = .error (.tooManyDigits digits.length) ∧ transcript.stdout = prompt ∧
      transcript.stderr = [] := by
  intro transcript
  have hword := Lexeme.isWord_of_numeral h
  have hanswer : (s.answer host mode line).1 = .error (.tooManyDigits digits.length) :=
    Session.answer_of_readIn_failure mode (readIn_of_long_number host s h hlong)
  have hrespond : s.respond host mode (line ++ ['\n'])
      = some (.error (.tooManyDigits digits.length), (s.answer host mode line).2) := by
    simp only [Session.respond, chomp_of_isWord hword, isBlankLine_of_isWord hword, if_neg Bool.false_ne_true, ← hanswer]
  have hnone : Answerable host mode s [] := answerable_nil
  have hrun : transcript = _ := run_of_fault prompt hnone hrespond rest
  have hprompt : (chunks (script host mode prompt s [])).flatten = prompt := by
    simp [script, asking, chunks, Operation.chunk?]
  rw [hrun]
  exact ⟨rfl, hprompt, rfl⟩

end

/-- One digit more than are converted: a session that is asked for this number does not
    live to answer the next line. -/
theorem run_of_long_ones :
    let transcript := run .none .eval Console.prompt Session.fresh
      [.text (List.replicate 4301 '1' ++ ['\n']), .text "1\n".toList]
    transcript.outcome = .error (.tooManyDigits 4301) ∧ transcript.stdout = Console.prompt ∧ transcript.stderr = [] := by
  have hlength : (List.replicate 4301 '1').length = 4301 := List.length_replicate
  have hnumeral : Numeral (List.replicate 4301 '1') (List.replicate 4301 '1')
      (decimal (List.replicate 4301 '1')) := by
    refine .plain (fun hnil => ?_) fun d hd => List.eq_of_mem_replicate hd ▸ rfl
    rw [hnil] at hlength
    exact absurd hlength (by decide)
  have hlong : maxDigits < (List.replicate 4301 '1').length := by
    rw [hlength]
    decide
  have hrun := run_of_long_number Hosts.none .eval Console.prompt Session.fresh hnumeral hlong [.text "1\n".toList]
  rwa [hlength] at hrun

end Console

end LineLisp
