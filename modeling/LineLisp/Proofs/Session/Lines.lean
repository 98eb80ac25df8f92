/-
  LineLisp.Proofs.Session.Lines — in a session of single lines every answer keeps its
  shape.

  A line without a newline brings no newline into the session: names and strings are
  parts of it (`Source.oneLine_read`, `newline_not_mem_slice`), and evaluating makes no
  newline (`Function.call_oneLine`). So no text in any value that the session has holds
  one, and neither does a message, which quotes parts of the line at most. Then a value is
  answered on one line and an error on three (`answers_keep_their_shape`).
-/

import LineLisp.Proofs.Expr.Interning
import LineLisp.Proofs.Function.Lines
import LineLisp.Proofs.Session.Invariant

namespace LineLisp

/-! ## Reading -/

theorem Source.newline_not_mem_slice {src : Source} (hsrc : '\n' ∉ src.text) (span : Span) : '\n' ∉ src.slice span :=
  fun h => hsrc (List.mem_of_mem_drop (List.mem_of_mem_take h))

/-- A single line leaves the names on one line each, whether or not it can be read. -/
theorem Source.oneLine_read {src : Source} {names : NameTable} (hsrc : '\n' ∉ src.text) (hnames : names.OneLine) :
    (src.read names).2.OneLine := by
  rw [names_read]
  refine hnames.internAll fun text htext => ?_
  obtain ⟨t, -, hname⟩ := List.mem_filterMap.mp htext
  obtain ⟨cs, rfl, hcs⟩ := Token.nameText?_eq_some hname
  exact Glyphs.oneLine_ofChars.mpr fun hc => newline_not_mem_slice hsrc t.span (hcs hc)

/-! ## Evaluating -/

/-- A stop that quotes no newline. -/
def Stop.OneLine (e : Stop) : Prop := ∀ span spelling, e = .error ⟨span, .unbound spelling⟩ → '\n' ∉ spelling

/-- Texts shown on one line. -/
def Properties.oneLine : Properties := ⟨Value.OneLine, fun _ => True, NameTable.OneLine, Stop.OneLine⟩

namespace Eval

variable {src : Source}

theorem evalAtom_oneLine (hsrc : '\n' ∉ src.text) {span : Span} {a : Atom} {s : Session} {v : Value}
    (hliteral : ∀ name, a ≠ .symbol name) (h : (evalAtom src span a s).1 = .ok v) : v.OneLine := by
  cases a with
  | symbol name => exact absurd rfl (hliteral name)
  | string =>
    simp only [evalAtom] at h
    generalize Span.of? (span.lo + 1) (span.hi - 1) = inner at h
    cases inner with
    | none => cases h
    | some inner =>
      cases h
      exact Value.oneLine_str.mpr (Glyphs.oneLine_ofChars.mpr (Source.newline_not_mem_slice hsrc inner))
  | keyword name => cases h; exact Value.oneLine_keyword name
  | bool b | integer n | nil => cases h; exact Value.oneLine_of_texts_eq_nil fun _ => rfl
  | operator op | unknown kind => cases h

end Eval

theorem Properties.keptBy_oneLine {host : Host} (hh : host.functions.OneLine) {src : Source} (hsrc : '\n' ∉ src.text) :
    Properties.oneLine.KeptBy host src where
  item _ _ := trivial
  atom _ hliteral h := Eval.evalAtom_oneLine hsrc hliteral h
  vector := Value.oneLine_vector.mpr
  call f budget _ _ hnames h := f.call_oneLine hh budget hnames h
  stop h span spelling he := h span spelling he ▸ src.newline_not_mem_slice hsrc span
  read := src.oneLine_read hsrc
  shrink hgrows hnames text htext := hnames text (hgrows.subset htext)
  expr _ := trivial

/-! ## Answering -/

theorem ErrorKind.oneLine_name (kind : ErrorKind) : '\n' ∉ kind.name.toList := by
  cases kind <;> decide +kernel

theorem ErrorKind.oneLine_description (kind : ErrorKind) : '\n' ∉ kind.description.toList := by
  cases kind <;> decide +kernel

theorem ReadError.oneLine_message (e : ReadError) : '\n' ∉ e.message.toList := by
  obtain ⟨span, cause⟩ := e
  cases cause with
  | strayCloser b => simp only [message]; cases b <;> decide +kernel
  | misplacedOperator op => simp only [message]; cases op <;> decide +kernel
  | trailing | integerRange => simp only [message]; decide +kernel
  | _ => exact ErrorKind.oneLine_description _

theorem EvalError.oneLine_message {e : EvalError} (h : Stop.OneLine (.error e)) : '\n' ∉ e.message.toList := by
  obtain ⟨span, cause⟩ := e
  cases cause with
  | unbound spelling =>
    have hspelling : '\n' ∉ spelling := h span spelling rfl
    simp only [message, String.toList_append, String.toList_ofList, List.mem_append, not_or]
    exact ⟨⟨by decide, hspelling⟩, by decide⟩
  | emptyList | notAFunction | notASymbol => exact ErrorKind.oneLine_description _
  | _ => simp only [message]; decide +kernel

namespace Session

/-- How the outcome of a line is laid out as the answer to it. -/
inductive LaidOut (names : NameTable) (line : List Char) : Except Failure Value → List Char → Prop
  /-- The printed value, on one line. -/
  | value {v : Value} {text : Glyphs} : v.display names = .ok text → text.OneLine →
      LaidOut names line (.ok v) (text.shown ++ ['\n'])
  /-- Three lines: what is wrong, the line itself, and carets after spaces. -/
  | diagnostic {f : Failure} {kind : ErrorKind} {message heading pointer : List Char} {indent width : Nat} :
      heading = "error: ".toList ++ kind.name.toList ++ ": ".toList ++ message →
      pointer = List.replicate indent ' ' ++ List.replicate width '^' → 0 < width →
      (∀ row ∈ [heading, line, pointer], '\n' ∉ row) →
      LaidOut names line (.error f) ([heading, line, pointer].flatMap (· ++ ['\n']))

variable {host : Host} {s : Session} {src : Source} {line : List Char}

theorem laidOut_render (names : NameTable) (src : Source) (f : Failure) (d : Diagnostic) (hmessage : '\n' ∉ d.message.toList)
    (hsrc : '\n' ∉ src.text) : LaidOut names src.text (.error f) (d.render src) := by
  have hheading : d.heading = "error: ".toList ++ d.kind.name.toList ++ ": ".toList ++ d.message.toList := rfl
  have hcarets : d.carets src
      = List.replicate (d.span.lo - src.start).toNat ' ' ++ List.replicate (max 1 d.span.length) '^' := rfl
  have hwidth : 0 < max 1 d.span.length := by omega
  have hrows : ∀ row ∈ [d.heading, src.text, d.carets src], '\n' ∉ row := by
    simp only [List.forall_mem_cons, hheading, hcarets, List.mem_append, List.mem_replicate, not_or]
    exact ⟨⟨⟨⟨by decide, d.kind.oneLine_name⟩, by decide⟩, hmessage⟩, hsrc, ⟨by simp, by simp⟩, fun _ h => nomatch h⟩
  have hrender : d.render src = [d.heading, src.text, d.carets src].flatMap (· ++ ['\n']) := by
    simp [Diagnostic.render]
  rw [hrender]
  exact .diagnostic hheading hcarets hwidth hrows

theorem laidOut_of_printed {v : Value} {reply : List Char} (hv : v.OneLine) (hnames : s.names.OneLine)
    (h : s.printed v = .ok reply) : LaidOut s.names line (.ok v) reply := by
  unfold printed Value.show? at h
  split at h
  · cases h
  · cases hd : v.display s.names with
    | error f => rw [hd] at h; cases h
    | ok text =>
      rw [hd] at h
      cases h
      exact .value hd (Value.oneLine_display (hv s.names hnames) hd)

theorem laidOut_of_answer (hh : host.functions.OneLine) (hs : s.Has .oneLine) (hline : '\n' ∉ line) {reply : List Char}
    (h : (s.answer host .eval line).1 = .ok reply) :
    LaidOut (s.run host ⟨line, 0⟩).2.names line (s.run host ⟨line, 0⟩).1 reply := by
  have hkept : Properties.oneLine.KeptBy host ⟨line, 0⟩ := Properties.keptBy_oneLine hh hline
  obtain ⟨hleft, hvalue, hstop⟩ := run_keeps hkept hs
  simp only [answer] at h
  generalize s.run host ⟨line, 0⟩ = x at h hleft hvalue hstop
  obtain ⟨f | v, t⟩ := x
  · cases f with
    | read e => cases h; exact laidOut_render t.names ⟨line, 0⟩ (.read e) e.diagnostic e.oneLine_message hline
    | eval e => cases h; exact laidOut_render t.names ⟨line, 0⟩ (.eval e) e.diagnostic (EvalError.oneLine_message (hstop e rfl)) hline
    | fault f => cases h
  · exact laidOut_of_printed (hvalue v rfl) hleft.names h

/-- In every session of lines without newlines and for every such next line, no text has a
    newline in it, neither in a value that a frame binds nor, at any point of the line's
    evaluation, in one at hand or in a frame, whatever a record costs. So if the line has an
    answer, that is its printed value on one line, or three lines with its error. -/
theorem answers_keep_their_shape (recordCost : Nat) (lines : List (List Char)) (line : List Char)
    (hlines : ∀ l ∈ lines, '\n' ∉ l) (hline : '\n' ∉ line) :
    let host : Host := ⟨Hosts.none, recordCost⟩
    let s := (fresh.answers host .eval lines).2
    let src : Source := ⟨line, 0⟩
    (∀ v ∈ s.frames.values, ∀ text ∈ v.texts s.names, '\n' ∉ text.shown) ∧
      (∀ e, (s.readIn host src).1 = .ok e →
        ∀ c, Eval.Runs host src ⟨.expr stackBudget e, [], (s.readIn host src).2⟩ c →
          ∀ v ∈ c.values, ∀ text ∈ v.texts c.session.names, '\n' ∉ text.shown) ∧
      ∀ reply, (s.answer host .eval line).1 = .ok reply → LaidOut (s.run host src).2.names line (s.run host src).1 reply := by
  intro host s src
  have hkept : ∀ l, '\n' ∉ l → Properties.oneLine.KeptBy host ⟨l, 0⟩ :=
    fun l hl => Properties.keptBy_oneLine Hosts.none_oneLine hl
  have hfresh : fresh.Has .oneLine := by
    refine fresh_has (fun _ h => (nomatch h)) (fun b names hnames => hnames.intern ?_) Value.oneLine_builtin
    cases b <;> decide
  have hs : s.Has .oneLine := answers_keeps (fun l hl => hkept l (hlines l hl)) hfresh
  refine ⟨fun v hv => hs.values v hv s.names hs.names, fun e _ c hrun => ?_, fun reply => laidOut_of_answer Hosts.none_oneLine hs hline⟩
  have hread : (s.readIn host src).2.Has .oneLine := readIn_keeps (hkept line hline) hs
  have hstart : (Eval.Config.mk (.expr stackBudget e) [] (s.readIn host src).2).Has .oneLine :=
    ⟨.expr trivial, fun t ht => (nomatch ht), hread⟩
  have hc : c.Has .oneLine := Eval.Runs.keeps (hkept line hline).toKept hrun hstart
  exact fun v hv => hc.mem_values hv c.session.names hc.session.names

/-- A keyword with a space and the mark of a function in its name, then an error. -/
theorem answers_keep_their_shape_with_error :
    let host : Host := ⟨Hosts.none, 0⟩
    let s := (fresh.answers host .eval ["(def k (keyword (str \"a b\" +)))".toList]).2
    let line := "(count k x)".toList
    let reply := "error: UndefinedSymbol: undefined symbol 'x'\n(count k x)\n         ^\n".toList
    '\n' ∉ line ∧ (s.answer host .eval line).1 = .ok reply ∧
      (∀ v ∈ s.frames.values, ∀ text ∈ v.texts s.names, '\n' ∉ text.shown) ∧
      LaidOut (s.run host ⟨line, 0⟩).2.names line (s.run host ⟨line, 0⟩).1 reply := by
  intro host s line reply
  have hline : '\n' ∉ line := by decide
  have hreply : (s.answer host .eval line).1 = .ok reply := by decide +kernel
  obtain ⟨htexts, -, hanswer⟩ :=
    answers_keep_their_shape 0 ["(def k (keyword (str \"a b\" +)))".toList] line (List.forall_mem_singleton.mpr (by decide)) hline
  exact ⟨hline, hreply, htexts, hanswer reply hreply⟩

end Session

end LineLisp
