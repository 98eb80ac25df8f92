/-
  LineLisp.Proofs.Session.Carets — carets point into the line.

  Every reading error is at characters of the line or, when there is no expression at all,
  at its end (`placed_of_failed`): at a lexeme, at the opener of an open group, or at the
  whole line, which is not empty then. An evaluation error is at a node, and a node is
  written with characters of the line (`holds_of_mem_nodes`). So the last line of a
  diagnostic is spaces and carets that end with the line at the latest, or one caret after
  it (`carets_point_into_line`).
-/

import LineLisp.Proofs.Expr.Failures
import LineLisp.Proofs.Session.Answers
import LineLisp.Proofs.Session.Blame
import LineLisp.Text

namespace LineLisp

/-! ## The last line of a text -/

namespace Text

theorem splitLines_append_newline (front rest : List Char) :
    splitLines (front ++ '\n' :: rest) = splitLines (front ++ ['\n']) ++ splitLines rest := by
  induction front with
  | nil => simp [splitLines]
  | cons c front ih =>
    simp only [List.cons_append, splitLines]
    by_cases hc : c = '\n'
    · rw [if_pos hc, if_pos hc, ih]
      rfl
    · rw [if_neg hc, if_neg hc, ih]
      cases hfront : splitLines (front ++ ['\n']) with
      | nil =>
        have hflat := flatten_splitLines (front ++ ['\n'])
        rw [hfront] at hflat
        exact absurd hflat (by simp)
      | cons line lines => rfl

theorem splitLines_line {line : List Char} (h : '\n' ∉ line) : splitLines (line ++ ['\n']) = [line ++ ['\n']] := by
  induction line with
  | nil => rfl
  | cons c line ih =>
    obtain ⟨hc, hline⟩ : '\n' ≠ c ∧ '\n' ∉ line := by simpa using h
    rw [List.cons_append, splitLines, if_neg (Ne.symm hc), ih hline]

end Text

/-! ## Spans in the line -/

namespace Source

/-- The span is in the line and not empty. -/
def Holds (src : Source) (span : Span) : Prop := src.span.contains span = true ∧ span.lo < span.hi

theorem Holds.line {src : Source} {span : Span} (h : src.Holds span) : src.Holds src.span := by
  obtain ⟨hinside, hlt⟩ := h
  obtain ⟨hlo, hhi⟩ := of_decide_eq_true hinside
  exact ⟨decide_eq_true ⟨Int.le_refl _, Int.le_refl _⟩, by omega⟩

theorem holds_of_mem_lexemes {src : Source} {x : Lexeme} (h : x ∈ src.lexemes) : src.Holds x.span :=
  ⟨(cut_of_mem_lexemes h).2.2, lo_lt_hi_of_mem_lexemes h⟩

/-- A node is written with characters of the line. -/
theorem holds_of_mem_nodes {src : Source} {names table : NameTable} {e n : Expr} (h : src.read names = (.ok e, table))
    (hn : n ∈ e.nodes) : src.Holds n.span := by
  cases n with
  | atom span a =>
    obtain ⟨us, hus, hin⟩ := Expr.exists_segment (tokens_of_read h).2 hn
    obtain ⟨t, -, rfl⟩ := Option.map_eq_some_iff.mp hus
    obtain ⟨hinside, hlt, -⟩ := exists_lexeme h (hin.subset List.mem_cons_self)
    exact ⟨hinside, hlt⟩
  | group span b items =>
    obtain ⟨hinside, hlt, -⟩ := group_written h hn
    exact ⟨hinside, hlt⟩

/-- Where an error of a kind is: in the line, or at its end if there is nothing to read. -/
def Placed (src : Source) (kind : ErrorKind) (span : Span) : Prop :=
  (kind = .unexpectedEndOfInput ∧ span = src.eof) ∨ (kind ≠ .unexpectedEndOfInput ∧ src.Holds span)

end Source

namespace Reader

variable {src : Source} {names names' : NameTable} {groups groups' : List OpenGroup} {xs : List Lexeme} {x : Lexeme}

theorem placed_of_token_error {e : ReadError} (hx : x ∈ src.lexemes) (h : x.token names = .error (.error e)) :
    src.Placed e.kind e.span := by
  obtain ⟨hcut, -⟩ := Source.cut_of_mem_lexemes hx
  have hflawed := Lexeme.flawed_of_token hcut h
  generalize x.text = text at hflawed
  cases hflawed <;> exact Or.inr ⟨nofun, Source.holds_of_mem_lexemes hx⟩

theorem placed_of_step_error {t : Token} {e : ReadError} (hx : x ∈ src.lexemes)
    (hgroups : ∀ g ∈ groups, src.Holds g.opener) (h : step src.span groups ⟨t, x.span⟩ = .error e) :
    src.Placed e.kind e.span := by
  have hholds := Source.holds_of_mem_lexemes hx
  rcases step_error_cases h with ⟨-, rfl⟩ | ⟨hkind, hspan⟩ | ⟨g, outer, b, rfl, -, -, rfl⟩
  · exact Or.inr ⟨by rintro ⟨⟩, hholds.line⟩
  · refine Or.inr ⟨by rw [hkind]; rintro ⟨⟩, ?_⟩
    rw [hspan]
    exact hholds
  · exact Or.inr ⟨by rintro ⟨⟩, hgroups g List.mem_cons_self⟩

theorem openers_of_place {e : Expr} (hgroups : ∀ g ∈ groups, src.Holds g.opener)
    (h : place e groups = .pending groups') : ∀ g ∈ groups', src.Holds g.opener := by
  cases groups with
  | nil => cases h
  | cons g outer =>
    cases h
    exact List.forall_mem_cons.mpr (List.forall_mem_cons.mp hgroups)

/-- A group is opened at a token. -/
theorem openers_of_step {t : PlacedToken} (ht : src.Holds t.span) (hgroups : ∀ g ∈ groups, src.Holds g.opener)
    (h : step src.span groups t = .ok (.pending groups')) : ∀ g ∈ groups', src.Holds g.opener := by
  obtain ⟨t, span⟩ := t
  cases t with
  | opener b =>
    simp only [step] at h
    split at h
    · cases h
    · cases h; exact List.forall_mem_cons.mpr ⟨ht, hgroups⟩
  | closer b =>
    cases groups with
    | nil => cases h
    | cons g outer =>
      simp only [step] at h
      split at h
      · exact openers_of_place (List.forall_mem_cons.mp hgroups).2 (Except.ok.inj h)
      · cases h
  | operator op =>
    simp only [step] at h
    split at h
    · exact openers_of_place hgroups (Except.ok.inj h)
    · cases h
  | integer n | string | keyword name | symbol name | bool b | nil => exact openers_of_place hgroups (Except.ok.inj h)

/-- Wherever reading fails, the error is in the line or at its end. -/
theorem placed_of_failed {f : ReadFailure} (h : Failed src.span src.eof names groups xs f) (hxs : xs ⊆ src.lexemes)
    (hgroups : ∀ g ∈ groups, src.Holds g.opener) : ∀ e, f = .error e → src.Placed e.kind e.span := by
  induction h with
  | @atEnd names groups =>
    rintro e he
    cases he
    cases groups with
    | nil => exact Or.inl ⟨rfl, rfl⟩
    | cons g outer => exact Or.inr ⟨nofun, hgroups g List.mem_cons_self⟩
  | malformed xs hx =>
    rintro e rfl
    exact placed_of_token_error (hxs List.mem_cons_self) hx
  | misplaced xs _ hs =>
    rintro e he
    cases he
    exact placed_of_step_error (hxs List.mem_cons_self) hgroups hs
  | later _ hs _ ih =>
    have hx := Source.holds_of_mem_lexemes (hxs List.mem_cons_self)
    exact ih (List.subset_of_cons_subset hxs) (openers_of_step hx hgroups hs)
  | malformedAfter ys _ _ hy =>
    rintro e rfl
    exact placed_of_token_error (hxs (List.mem_cons_of_mem _ List.mem_cons_self)) hy
  | trailing ys _ _ _ =>
    rintro e he
    cases he
    exact Or.inr ⟨nofun, Source.holds_of_mem_lexemes (hxs (List.mem_cons_of_mem _ List.mem_cons_self))⟩

end Reader

/-! ## Carets -/

/-- The last line of a diagnostic, with the line feed that ends it. -/
def Diagnostic.lastLine? (d : Diagnostic) (src : Source) : Option (List Char) :=
  (Text.splitLines (d.render src)).getLast?

theorem Diagnostic.lastLine?_eq (d : Diagnostic) (src : Source) : d.lastLine? src = some (d.carets src ++ ['\n']) := by
  have hcarets : '\n' ∉ d.carets src := by simp [carets]
  have hrender : d.render src = (d.heading ++ '\n' :: src.text) ++ '\n' :: (d.carets src ++ ['\n']) := by
    simp [render]
  rw [lastLine?, hrender, Text.splitLines_append_newline, Text.splitLines_line hcarets, List.getLast?_concat]

/-- Where a diagnostic of a line points. -/
structure Diagnostic.PointsInto (src : Source) (d : Diagnostic) : Prop where
  inside : src.span.contains d.span = true
  empty_iff : d.span.lo = d.span.hi ↔ d.kind = .unexpectedEndOfInput
  /-- One caret after the line. -/
  atEnd : d.kind = .unexpectedEndOfInput → d.span = src.eof ∧
    d.lastLine? src = some (List.replicate src.text.length ' ' ++ ['^'] ++ ['\n'])
  /-- Carets under the characters to blame. -/
  under : d.kind ≠ .unexpectedEndOfInput →
    d.lastLine? src = some (List.replicate (d.span.lo - src.start).toNat ' ' ++
      List.replicate (d.span.hi - d.span.lo).toNat '^' ++ ['\n']) ∧
    (d.span.lo - src.start).toNat + (d.span.hi - d.span.lo).toNat ≤ src.text.length

theorem Diagnostic.pointsInto_of_holds {src : Source} {d : Diagnostic} (hkind : d.kind ≠ .unexpectedEndOfInput)
    (h : src.Holds d.span) : d.PointsInto src := by
  obtain ⟨hinside, hlt⟩ := h
  obtain ⟨hlo, hhi⟩ := of_decide_eq_true hinside
  have hwidth : max 1 d.span.length = (d.span.hi - d.span.lo).toNat := by
    simp only [Span.length]
    omega
  have hlast := d.lastLine?_eq src
  rw [carets, hwidth] at hlast
  have hempty : d.span.lo = d.span.hi ↔ d.kind = .unexpectedEndOfInput :=
    ⟨fun heq => absurd heq (Int.ne_of_lt hlt), fun h => absurd h hkind⟩
  refine ⟨hinside, hempty, fun h => absurd h hkind, fun _ => ⟨hlast, ?_⟩⟩
  simp only [Source.span, Span.ofLength] at hlo hhi
  omega

theorem Diagnostic.pointsInto_of_eof {src : Source} {d : Diagnostic} (hkind : d.kind = .unexpectedEndOfInput)
    (hspan : d.span = src.eof) : d.PointsInto src := by
  have hindent : (src.eof.lo - src.start).toNat = src.text.length := by
    simp only [Source.eof, Span.point]
    omega
  have hwidth : max 1 src.eof.length = 1 := by simp [Source.eof, Span.point, Span.length]
  have hlast := d.lastLine?_eq src
  rw [carets, hspan, hindent, hwidth] at hlast
  have hinside : src.span.contains src.eof = true :=
    decide_eq_true ⟨Int.le_add_of_nonneg_right (Int.natCast_nonneg _), Int.le_refl _⟩
  have hempty : src.eof.lo = src.eof.hi := rfl
  refine ⟨hspan ▸ hinside, ⟨fun _ => hkind, fun _ => hspan ▸ hempty⟩, fun _ => ⟨hspan, hlast⟩, ?_⟩
  exact fun hne => absurd hkind hne

/-- An error points into the line. A fault has no diagnostic. -/
def Failure.PointsInto (src : Source) : Failure → Prop
  | read e => e.diagnostic.PointsInto src
  | eval e => e.diagnostic.PointsInto src
  | fault _ => True

namespace Session

variable {src : Source} {s : Session} {f : Failure}

theorem pointsInto_of_read (h : (s.read src).1 = .error f) : f.PointsInto src := by
  obtain ⟨failure, hread, rfl⟩ := exists_failure_of_read h
  cases failure with
  | error e =>
    have hplaced : src.Placed e.kind e.span := Reader.placed_of_failed (Reader.failed_of_readFrom hread)
      (List.Subset.refl _) (fun _ hg => nomatch hg) e rfl
    rcases hplaced with ⟨hkind, hspan⟩ | ⟨hkind, hholds⟩
    · exact Diagnostic.pointsInto_of_eof hkind hspan
    · exact Diagnostic.pointsInto_of_holds hkind hholds
  | tooManyDigits n => trivial

theorem pointsInto_of_readIn {host : Host} (h : (s.readIn host src).1 = .error f) : f.PointsInto src := by
  rcases readIn_cases host s src with hread | ⟨names, more, hunrecorded⟩
  · rw [hread] at h
    exact pointsInto_of_read h
  · rw [hunrecorded.readIn] at h
    cases h
    obtain ⟨x, hx⟩ := List.exists_mem_of_ne_nil _ hunrecorded.lexemes
    exact Diagnostic.pointsInto_of_holds nofun (Source.holds_of_mem_lexemes hx).line

theorem pointsInto_of_eval {host : Host} {names table : NameTable} {e : Expr}
    (hread : src.read names = (.ok e, table)) (h : (s.eval host src e).1 = .error f) : f.PointsInto src := by
  cases f with
  | eval err =>
    obtain ⟨n, hn, hspan⟩ := (blame_of_error hread h).node
    have hkind : err.kind ≠ .unexpectedEndOfInput := fun hk => by
      have heval := err.isEval_kind
      rw [hk] at heval
      cases heval
    have hholds : src.Holds err.span := hspan ▸ Source.holds_of_mem_nodes hread hn
    exact Diagnostic.pointsInto_of_holds hkind hholds
  | read err =>
    obtain ⟨stop, -, hstop⟩ := exists_stop_of_eval h
    cases stop <;> cases hstop
  | fault f => trivial

/-- For every line, at any start, and every session: an error of reading the line or of
    evaluating what it is read as is at characters of the line, or at its end when there is
    nothing to read; there its carets stand. -/
theorem carets_point_into_line (host : Host) (src : Source) (s : Session) :
    (∀ f, (s.readIn host src).1 = .error f → f.PointsInto src) ∧
      ∀ f, (s.run host src).1 = .error f → f.PointsInto src := by
  refine ⟨fun f => pointsInto_of_readIn, fun f h => ?_⟩
  cases hread : (s.readIn host src).1 with
  | error f' =>
    cases (congrArg Prod.fst (run_of_readIn_error hread)).symm.trans h
    exact pointsInto_of_readIn hread
  | ok e =>
    have hquiet := readIn_of_ok hread
    rw [run_of_readIn hread, hquiet] at h
    rw [hquiet] at hread
    obtain ⟨names, he⟩ := exists_read_of_read hread
    exact pointsInto_of_eval he h

/-- A bracket that is not closed, on a line that starts elsewhere. -/
theorem carets_point_into_line_unclosed :
    let src : Source := ⟨"[1 (+ 2".toList, 3⟩
    let err : ReadError := ⟨Span.ofLength 6 1, .unbalanced⟩
    (fresh.read src).1 = .error (.read err) ∧ err.diagnostic.PointsInto src ∧
      err.diagnostic.lastLine? src = some "   ^\n".toList := by
  intro src err
  have herr : (match (fresh.read src).1 with
      | .error (.read e) => some e
      | _ => none) = some err := by decide +kernel
  have hread : (fresh.read src).1 = .error (.read err) := by
    split at herr
    · rename_i hread; cases herr; exact hread
    · cases herr
  have hreadIn : (fresh.readIn Hosts.none src).1 = .error (.read err) := by rw [readIn_quiet, hread]
  exact ⟨hread, (carets_point_into_line Hosts.none src fresh).1 _ hreadIn, by decide⟩

end Session

end LineLisp
