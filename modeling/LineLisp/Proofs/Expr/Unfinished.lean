/-
  LineLisp.Proofs.Expr.Unfinished — wrong lines and unfinished lines.

  A line that is wrong stays so, with the same error, whatever is written after it and a
  separator (`error_lasts`). A line whose tokens have run out can be finished: it has
  separators only, and then any line that can be read may follow (`read_extend_blank`),
  or its brackets that are still open can be closed, the innermost first
  (`read_extend_closers`). The error tells which of the two a line is
  (`errors_separate_wrong_from_unfinished`).
-/

import LineLisp.Proofs.Expr.Failures
import LineLisp.Proofs.Expr.RoundTrip
import LineLisp.Proofs.Lexeme.Joining

namespace LineLisp

/-! ## Brackets still open -/

/-- The brackets open after a token, the innermost first. -/
def track (brackets : List (Bracket × Span)) (t : PlacedToken) : List (Bracket × Span) :=
  match t.token with
  | .opener b => (b, t.span) :: brackets
  | .closer _ => brackets.tail
  | _ => brackets

/-- The brackets that tokens leave open, the innermost first. -/
def stillOpen (ts : List PlacedToken) : List (Bracket × Span) := ts.foldl track []

/-- The closing brackets for open ones. -/
def closers (brackets : List (Bracket × Span)) : List Char := brackets.map fun p => p.1.closer

namespace Reader

def OpenGroup.mark (g : OpenGroup) : Bracket × Span := (g.bracket, g.opener)

variable {line : Span} {groups groups' : List OpenGroup}

theorem place_eq_pending {e : Expr} (h : place e groups = .pending groups') :
    groups' ≠ [] ∧ groups'.map OpenGroup.mark = groups.map OpenGroup.mark := by
  cases groups with
  | nil => cases h
  | cons g outer => cases h; exact ⟨List.cons_ne_nil _ _, rfl⟩

theorem step_eq_pending {t : PlacedToken} (h : step line groups t = .ok (.pending groups')) :
    groups' ≠ [] ∧ groups'.map OpenGroup.mark = track (groups.map OpenGroup.mark) t := by
  obtain ⟨t, span⟩ := t
  cases t with
  | opener b =>
    simp only [step] at h
    split at h <;> cases h
    exact ⟨List.cons_ne_nil _ _, rfl⟩
  | closer b =>
    cases groups with
    | nil => cases h
    | cons g outer =>
      simp only [step] at h
      split at h
      · exact place_eq_pending (Except.ok.inj h)
      · cases h
  | operator op =>
    simp only [step] at h
    split at h
    · exact place_eq_pending (Except.ok.inj h)
    · cases h
  | integer n | string | keyword name | symbol name | bool b | nil => exact place_eq_pending (Except.ok.inj h)

theorem marks_of_pending? {ts : List PlacedToken} (h : pending? line groups ts = some groups') :
    groups'.map OpenGroup.mark = ts.foldl track (groups.map OpenGroup.mark) := by
  induction ts generalizing groups with
  | nil => cases h; rfl
  | cons t ts ih =>
    rw [pending?] at h
    split at h
    · rename_i hs
      rw [List.foldl_cons, ← (step_eq_pending hs).2]
      exact ih h
    · cases h

/-- After a token some group is open. -/
theorem eq_nil_of_pending? {ts : List PlacedToken} (h : pending? line groups ts = some []) : ts = [] := by
  induction ts generalizing groups with
  | nil => rfl
  | cons t ts ih =>
    rw [pending?] at h
    split at h
    · rename_i hs
      rw [ih h] at h
      exact absurd (Option.some.inj h) (step_eq_pending hs).1
    · cases h

/-- Closing all open groups, the innermost first, makes the expression whole. -/
theorem readTokens?_closers {ts : List PlacedToken} (hne : groups ≠ [])
    (hts : ts.map (·.token) = groups.map fun g => .closer g.bracket) : ∃ e, readTokens? line groups ts = some e := by
  induction ts generalizing groups with
  | nil => exact absurd (List.map_eq_nil_iff.mp hts.symm) hne
  | cons t ts ih =>
    cases groups with
    | nil => exact absurd rfl hne
    | cons g outer =>
      obtain ⟨ht, hrest⟩ := List.cons.inj hts
      have hs : step line (g :: outer) t = .ok (place (.group (g.opener.join t.span) g.bracket g.items.reverse) outer) := by
        simp only [step, show t.token = .closer g.bracket from ht, if_true]
      rw [readTokens?_cons line hs]
      -- the closed group is an item of the next one, which has the bracket it had
      cases outer with
      | nil =>
        rw [List.map_eq_nil_iff.mp hrest]
        exact ⟨_, rfl⟩
      | cons g' outer => exact @ih ({ g' with items := _ :: g'.items } :: outer) (List.cons_ne_nil _ _) hrest

end Reader

/-! ## Going on with a line -/

/-- The lexemes of closing brackets. -/
theorem Lexeme.exists_scan_closers (brackets : List (Bracket × Span)) (pos : Int) :
    ∃ ys, Scan pos (closers brackets) ys ∧ ys.map (·.shape) = brackets.map fun p => .closer p.1 := by
  induction brackets generalizing pos with
  | nil => exact ⟨[], .nil pos, rfl⟩
  | cons p brackets ih =>
    obtain ⟨ys, hscan, hys⟩ := ih (pos + 1)
    refine ⟨⟨.closer p.1, [p.1.closer], pos⟩ :: ys, .lexeme (.closer p.1 _) hscan, ?_⟩
    rw [List.map_cons, List.map_cons, hys]

theorem tokens_of_closers {names : NameTable} {ys : List Lexeme} {brackets : List (Bracket × Span)}
    (h : ys.map (·.shape) = brackets.map fun p => .closer p.1) :
    (tokens names ys).2 = (none, names) ∧ (tokens names ys).1.map (·.token) = brackets.map fun p => .closer p.1 := by
  induction ys generalizing brackets with
  | nil =>
    rw [List.map_eq_nil_iff.mp h.symm]
    exact ⟨rfl, rfl⟩
  | cons y ys ih =>
    cases brackets with
    | nil => cases h
    | cons p brackets =>
      obtain ⟨hy, hys⟩ := List.cons.inj h
      have htoken : y.token names = .ok (.closer p.1, names) := by
        simp only [Lexeme.token, show y.shape = .closer p.1 from hy]
      obtain ⟨hstop, hts⟩ := ih hys
      rw [tokens_cons_ok htoken]
      exact ⟨hstop, congrArg (List.cons _) hts⟩

theorem ends_closers (brackets : List (Bracket × Span)) : Lexeme.Ends (closers brackets) := by
  cases brackets with
  | nil => exact Lexeme.ends_nil
  | cons p brackets => exact Expr.ends_closer p.1 _

theorem Lexeme.ends_separator {c : Char} (h : isSeparator c = true) (rest : List Char) : Ends (c :: rest) :=
  ends_cons (by simp [isRunning, h]) rest

namespace Source

variable {src : Source} {names : NameTable}

/-- The line with more text after it. -/
def extend (src : Source) (more : List Char) : Source := ⟨src.text ++ more, src.start⟩

/-- Reading failed because the tokens ran out: all were taken, and the expression is not whole. -/
def RanOut (src : Source) (names : NameTable) : Prop := Reader.RunsOut src.span names [] src.lexemes

/-- Reading failed at a bracket that closes a group of the other kind. -/
def Mismatched (src : Source) (names : NameTable) : Prop := Reader.ClosesOther src.span [] (src.tokens names).1

theorem Mismatched.not_ranOut (h : src.Mismatched names) : ¬ src.RanOut names := by
  rintro ⟨-, groups, hgroups⟩
  have hnone := Reader.ClosesOther.not_pending h
  rw [tokens, hgroups] at hnone
  cases hnone

theorem failed_of_read {f : ReadFailure} (h : (src.read names).1 = .error f) :
    Reader.Failed src.span src.eof names [] src.lexemes f := Reader.failed_of_readFrom h

/-- What was wrong before a separator stays wrong. -/
theorem error_lasts {e : ReadError} (h : (src.read names).1 = .error (.error e)) (hstring : e.kind ≠ .unterminatedString)
    (hdeep : e.kind ≠ .nestingTooDeep) (hran : ¬ src.RanOut names) {s : Char} (hs : Lexeme.isSeparator s = true)
    (u : List Char) : ((src.extend (s :: u)).read names).1 = .error (.error e) := by
  obtain hout | ⟨ys, zs, hlexemes, hclosed, hread⟩ := (failed_of_read h).settled hstring hdeep
  · exact absurd hout hran
  · have hscan : Lexeme.Scan src.start src.text (ys ++ zs) := Lexeme.scan_iff.mpr hlexemes
    obtain ⟨zs', hscan'⟩ := hscan.append_of_closed hclosed (Lexeme.ends_separator hs u)
    have hlexemes' : (src.extend (s :: u)).lexemes = ys ++ zs' := Lexeme.scan_iff.mp hscan'
    rw [read, hlexemes']
    exact hread _ _ zs'

/-- A line of separators may go on as any line that can be read. -/
theorem read_extend_blank (hblank : ∀ c ∈ src.text, Lexeme.isSeparator c = true) {other : Source} {table : NameTable}
    {e : Expr} (hread : (other.read table).1 = .ok e) : ∃ e', ((src.extend other.text).read names).1 = .ok e' := by
  obtain ⟨e', -, hnames, -⟩ := read_spells_alike (Prod.ext hread rfl) names
  have hkeys : other.lexemes.map Lexeme.key = (src.extend other.text).lexemes.map Lexeme.key := by
    rw [map_key_lexemes, map_key_lexemes]
    exact (Lexeme.keys_append_of_separators hblank other.text).symm
  obtain ⟨e'', hextended, -⟩ := read_of_keys (Prod.ext hnames rfl) hkeys
  exact ⟨e'', by rw [hextended]⟩

/-- A line that left groups open may go on with their closing brackets. -/
theorem read_extend_closers {groups : List OpenGroup} (hstop : (src.tokens names).2.1 = none)
    (hgroups : Reader.pending? src.span [] (src.tokens names).1 = some groups) (hne : groups ≠ []) :
    ∃ e, ((src.extend (closers (groups.map Reader.OpenGroup.mark))).read names).1 = .ok e := by
  have hscan : Lexeme.Scan src.start src.text src.lexemes := Lexeme.scan_iff.mpr rfl
  obtain ⟨ys, hclosers, hys⟩ :=
    Lexeme.exists_scan_closers (groups.map Reader.OpenGroup.mark) (src.start + src.text.length)
  have hlexemes : (src.extend (closers (groups.map Reader.OpenGroup.mark))).lexemes = src.lexemes ++ ys :=
    Lexeme.scan_iff.mp (hscan.append (Lexeme.shape_ne_openString_of_tokens hstop) (ends_closers _) hclosers)
  obtain ⟨hstop', hts⟩ := @tokens_of_closers (src.tokens names).2.2 ys _ hys
  have htokens := @tokens_append names src.lexemes ys hstop
  obtain ⟨e, he⟩ := Reader.readTokens?_closers hne (hts.trans List.map_map)
  refine ⟨e, (Reader.readFrom_eq_ok_iff _).mpr ?_⟩
  rw [hlexemes, htokens]
  refine ⟨congrArg Prod.fst hstop', ?_⟩
  exact (Reader.readTokens?_append (Reader.pending?_of_line hgroups _)).trans he

/-- What a line may go on with whose tokens have run out, and what was blamed. -/
theorem finish_of_ranOut {e : ReadError} (h : (src.read names).1 = .error (.error e)) (hran : src.RanOut names) :
    (e = ⟨src.eof, .endOfInput⟩ ∧ ∀ c ∈ src.text, Lexeme.isSeparator c = true) ∨
      ∃ b span outer, stillOpen (src.tokens names).1 = (b, span) :: outer ∧ e = ⟨span, .unbalanced⟩ ∧
        ∃ e', ((src.extend (closers (stillOpen (src.tokens names).1))).read names).1 = .ok e' := by
  obtain ⟨hstop, groups, hgroups⟩ := hran
  obtain rfl : e = Reader.endError src.eof groups := by
    have hend : (src.read names).1 = _ := Reader.readFrom_of_runsOut hstop hgroups
    rw [h] at hend
    cases hend
    rfl
  have hopen : groups.map Reader.OpenGroup.mark = stillOpen (src.tokens names).1 := Reader.marks_of_pending? hgroups
  cases groups with
  | nil =>
    have hnone : (src.tokens names).1 = [] := Reader.eq_nil_of_pending? hgroups
    have hlexemes : src.lexemes = [] := by
      have hall := forall₂_lexemes hstop
      rw [hnone] at hall
      exact List.forall₂_nil_left_iff.mp hall
    exact Or.inl ⟨rfl, (Lexeme.scan_iff.mpr hlexemes).separators_of_nil⟩
  | cons g outer =>
    refine Or.inr ⟨g.bracket, g.opener, outer.map Reader.OpenGroup.mark, hopen.symm, rfl, ?_⟩
    rw [← hopen]
    exact read_extend_closers hstop hgroups (List.cons_ne_nil _ _)

/-- The errors of wrong lines last: those of malformed lexemes, of misplaced tokens and of
    a bracket that closes a group of the other kind are the same whatever follows after a
    separator. The errors of lines whose tokens run out can be mended: either the line
    has separators only, and any line that is read alone may follow, or the bracket to
    blame is the innermost one still open, and closing those that are open, the innermost
    first, makes a line that is read. A bracket left open and a missing expression are
    blamed in no other case. -/
theorem errors_separate_wrong_from_unfinished (src : Source) (names : NameTable) (e : ReadError)
    (h : (src.read names).1 = .error (.error e)) :
    ((e.kind = .invalidInteger ∨ e.kind = .invalidKeyword ∨ e.kind = .unexpectedToken ∨
          e.kind = .unbalancedDelimiter ∧ src.Mismatched names) →
        ∀ s, Lexeme.isSeparator s = true → ∀ u, ((src.extend (s :: u)).read names).1 = .error (.error e)) ∧
      (src.RanOut names →
        (e = ⟨src.eof, .endOfInput⟩ ∧ (∀ c ∈ src.text, Lexeme.isSeparator c = true) ∧
          ∀ (other : Source) table alone, (other.read table).1 = .ok alone →
            ∃ e', ((src.extend other.text).read names).1 = .ok e') ∨
        ∃ b span outer, stillOpen (src.tokens names).1 = (b, span) :: outer ∧ e = ⟨span, .unbalanced⟩ ∧
          ∃ e', ((src.extend (closers (stillOpen (src.tokens names).1))).read names).1 = .ok e') ∧
      (e.kind = .unbalancedDelimiter ∨ e.kind = .unexpectedEndOfInput → src.RanOut names ∨ src.Mismatched names) := by
  refine ⟨fun hwrong s hs u => ?_, fun hran => ?_, (failed_of_read h).unclosed⟩
  · have hran : ¬ src.RanOut names := by
      intro hran
      rcases finish_of_ranOut h hran with ⟨rfl, -⟩ | ⟨b, span, outer, -, rfl, -⟩
      · rcases hwrong with hk | hk | hk | ⟨hk, -⟩ <;> cases hk
      · rcases hwrong with hk | hk | hk | ⟨-, hmismatched⟩
        · cases hk
        · cases hk
        · cases hk
        · exact hmismatched.not_ranOut hran
    have hkind : e.kind ≠ .unterminatedString ∧ e.kind ≠ .nestingTooDeep := by
      rcases hwrong with hk | hk | hk | ⟨hk, -⟩ <;> rw [hk] <;> exact ⟨nofun, nofun⟩
    exact error_lasts h hkind.1 hkind.2 hran hs u
  · rcases finish_of_ranOut h hran with ⟨he, hblank⟩ | hopen
    · exact Or.inl ⟨he, hblank, fun other table alone hread => read_extend_blank hblank hread⟩
    · exact Or.inr hopen

theorem eq_error_of_isError {ε α : Type} [DecidableEq ε] {x : Except ε α} {f : ε}
    (h : (match x with | .error g => decide (g = f) | .ok _ => false) = true) : x = .error f := by
  cases x with
  | error g => exact congrArg Except.error (of_decide_eq_true h)
  | ok _ => cases h

/-- Two brackets are open, and the inner one is blamed; closing both mends the line. -/
theorem errors_separate_with_two_open :
    let src : Source := ⟨"(f [:a".toList, 2⟩
    (src.read .empty).1 = .error (.error ⟨Span.ofLength 5 1, .unbalanced⟩) ∧
      ∃ e', ((src.extend "])".toList).read .empty).1 = .ok e' := by
  intro src
  have hread : (src.read .empty).1 = .error (.error ⟨Span.ofLength 5 1, .unbalanced⟩) :=
    eq_error_of_isError (by decide +kernel)
  have hopen : stillOpen (src.tokens .empty).1 = [(.square, Span.ofLength 5 1), (.round, Span.ofLength 2 1)] := by
    decide +kernel
  have hpending : (Reader.pending? src.span [] (src.tokens .empty).1).isSome = true := by decide +kernel
  have hran : src.RanOut .empty := ⟨by decide +kernel, Option.isSome_iff_exists.mp hpending⟩
  obtain ⟨-, hmend, -⟩ := errors_separate_wrong_from_unfinished src .empty _ hread
  rcases hmend hran with ⟨he, -⟩ | ⟨-, -, -, -, -, hclosed⟩
  · exact absurd he (by decide)
  · rw [hopen] at hclosed
    exact ⟨hread, hclosed⟩

end Source

end LineLisp
