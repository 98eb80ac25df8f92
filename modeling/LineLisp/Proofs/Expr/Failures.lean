/-
  LineLisp.Proofs.Expr.Failures — where reading stops.

  Reading fails at a lexeme, for itself or for where it stands, or at the end of the line
  when the expression is not whole (`Failed`). Which groups are open then is what
  `pending?` says. A failure at a lexeme, unless that is an open string or one bracket too
  many, is settled there: it is the same whatever comes after the lexeme
  (`Failed.settled`). A bracket that is not closed is blamed at the end of the line or at
  a bracket of the other kind (`Failed.unclosed`).
-/

import LineLisp.Proofs.Expr.Acceptance
import LineLisp.Proofs.Lexeme.Tokens

namespace LineLisp

/-! ## Lexemes without a token -/

namespace Lexeme

variable {names names' : NameTable} {x : Lexeme}

theorem kind_of_wordToken_error {e : ReadError} (h : x.wordToken names = .error (.error e)) : e.kind = .invalidInteger := by
  unfold wordToken at h
  split at h
  · cases h
  · repeat' split at h
    all_goals cases h
    all_goals rfl

theorem kind_of_token_error {e : ReadError} (h : x.token names = .error (.error e)) :
    (x.shape = .openString ∧ e.kind = .unterminatedString) ∨
      (x.shape ≠ .openString ∧ (e.kind = .invalidInteger ∨ e.kind = .invalidKeyword)) := by
  unfold token at h
  cases hs : x.shape <;> simp only [hs] at h
  case openString => cases h; exact Or.inl ⟨rfl, rfl⟩
  case keyword =>
    split at h
    · cases h; exact Or.inr ⟨nofun, Or.inr rfl⟩
    · cases h
  case word => exact Or.inr ⟨nofun, Or.inl (kind_of_wordToken_error h)⟩
  all_goals cases h

theorem shape_ne_openString_of_token {t : Token} (h : x.token names = .ok (t, names')) : x.shape ≠ .openString := by
  rw [shape_of_token h]
  cases t <;> exact nofun

theorem shape_ne_openString_of_tokens {xs : List Lexeme} (h : (tokens names xs).2.1 = none) :
    ∀ x ∈ xs, x.shape ≠ .openString := by
  intro x hx
  obtain ⟨t, -, -, n, n', htoken, -⟩ := exists_of_forall₂_right (forall₂_of_tokens h) hx
  exact shape_ne_openString_of_token htoken

end Lexeme

namespace Reader

/-! ## Groups left open -/

/-- The groups that are open after tokens, if the expression is not whole yet. -/
def pending? (line : Span) : List OpenGroup → List PlacedToken → Option (List OpenGroup)
  | groups, [] => some groups
  | groups, t :: ts =>
    match step line groups t with
    | .ok (.pending groups) => pending? line groups ts
    | _ => none

variable {line line' eof : Span} {groups groups' : List OpenGroup} {names names' : NameTable} {xs : List Lexeme}

theorem pending?_cons {t : PlacedToken} (h : step line groups t = .ok (.pending groups')) (ts : List PlacedToken) :
    pending? line groups (t :: ts) = pending? line groups' ts := by
  rw [pending?, h]

theorem pending?_append {ts us : List PlacedToken} (h : pending? line groups ts = some groups') :
    pending? line groups (ts ++ us) = pending? line groups' us := by
  induction ts generalizing groups with
  | nil => cases h; rfl
  | cons t ts ih =>
    rw [List.cons_append, pending?]
    rw [pending?] at h
    split at h
    · exact ih h
    · cases h

/-- Tokens that leave the expression unfinished are read as far as that. -/
theorem readTokens?_append {ts us : List PlacedToken} (h : pending? line groups ts = some groups') :
    readTokens? line groups (ts ++ us) = readTokens? line groups' us := by
  induction ts generalizing groups with
  | nil => cases h; rfl
  | cons t ts ih =>
    rw [List.cons_append, readTokens?]
    rw [pending?] at h
    split at h
    · rename_i hs
      rw [hs]
      exact ih h
    · cases h

/-- The extent of the line is only ever blamed for too many brackets. -/
theorem step_line (line line' : Span) (groups : List OpenGroup) (t : PlacedToken) :
    step line' groups t = step line groups t ∨ step line groups t = .error ⟨line, .tooDeep⟩ := by
  obtain ⟨t, span⟩ := t
  cases t with
  | opener b =>
    simp only [step]
    split
    · exact Or.inr rfl
    · exact Or.inl rfl
  | _ => exact Or.inl rfl

theorem step_ok_of_line {t : PlacedToken} {p : Progress} (h : step line groups t = .ok p) (line' : Span) :
    step line' groups t = .ok p := by
  rcases step_line line line' groups t with hs | hs
  · rw [hs, h]
  · rw [hs] at h
    cases h

theorem step_error_of_line {t : PlacedToken} {e : ReadError} (h : step line groups t = .error e)
    (hdeep : e.kind ≠ .nestingTooDeep) (line' : Span) : step line' groups t = .error e := by
  rcases step_line line line' groups t with hs | hs
  · rw [hs, h]
  · rw [hs] at h
    cases h
    exact absurd rfl hdeep

/-- A step blames the whole line for a bracket too many, its token, or a group that a
    bracket of the other kind closes. -/
theorem step_error_cases {t : PlacedToken} {e : ReadError} (h : step line groups t = .error e) :
    ((∃ b, t.token = .opener b) ∧ e = ⟨line, .tooDeep⟩) ∨ (e.kind = .unexpectedToken ∧ e.span = t.span) ∨
      ∃ g outer b, groups = g :: outer ∧ t.token = .closer b ∧ g.bracket ≠ b ∧ e = ⟨g.opener, .unbalanced⟩ := by
  obtain ⟨t, span⟩ := t
  cases t with
  | opener b =>
    simp only [step] at h
    split at h <;> cases h
    exact Or.inl ⟨⟨b, rfl⟩, rfl⟩
  | closer b =>
    cases groups with
    | nil =>
      cases h
      exact Or.inr (Or.inl ⟨rfl, rfl⟩)
    | cons g outer =>
      simp only [step] at h
      split at h
      · cases h
      · rename_i hb
        cases h
        exact Or.inr (Or.inr ⟨g, outer, b, rfl, rfl, hb, rfl⟩)
  | operator op =>
    simp only [step] at h
    split at h <;> cases h
    exact Or.inr (Or.inl ⟨rfl, rfl⟩)
  | integer n | string | keyword name | symbol name | bool b | nil => cases h

theorem pending?_of_line {ts : List PlacedToken} (h : pending? line groups ts = some groups') (line' : Span) :
    pending? line' groups ts = some groups' := by
  induction ts generalizing groups with
  | nil => exact h
  | cons t ts ih =>
    rw [pending?] at h
    split at h
    · rename_i hs
      rw [pending?_cons (step_ok_of_line hs line')]
      exact ih h
    · cases h

/-! ## Failures -/

/-- Why reading on with some groups open fails. -/
inductive Failed (line eof : Span) : NameTable → List OpenGroup → List Lexeme → ReadFailure → Prop
  | atEnd {names : NameTable} {groups : List OpenGroup} : Failed line eof names groups [] (.error (endError eof groups))
  | malformed {names : NameTable} {groups : List OpenGroup} {x : Lexeme} {f : ReadFailure} (xs : List Lexeme) :
      x.token names = .error f → Failed line eof names groups (x :: xs) f
  | misplaced {names names' : NameTable} {groups : List OpenGroup} {x : Lexeme} {t : Token} {e : ReadError}
      (xs : List Lexeme) : x.token names = .ok (t, names') → step line groups ⟨t, x.span⟩ = .error e →
      Failed line eof names groups (x :: xs) (.error e)
  | later {names names' : NameTable} {groups groups' : List OpenGroup} {x : Lexeme} {t : Token} {xs : List Lexeme}
      {f : ReadFailure} : x.token names = .ok (t, names') → step line groups ⟨t, x.span⟩ = .ok (.pending groups') →
      Failed line eof names' groups' xs f → Failed line eof names groups (x :: xs) f
  | malformedAfter {names names' : NameTable} {groups : List OpenGroup} {x y : Lexeme} {t : Token} {e : Expr}
      {f : ReadFailure} (ys : List Lexeme) : x.token names = .ok (t, names') →
      step line groups ⟨t, x.span⟩ = .ok (.complete e) → y.token names' = .error f →
      Failed line eof names groups (x :: y :: ys) f
  | trailing {names names' names'' : NameTable} {groups : List OpenGroup} {x y : Lexeme} {t t' : Token} {e : Expr}
      (ys : List Lexeme) : x.token names = .ok (t, names') → step line groups ⟨t, x.span⟩ = .ok (.complete e) →
      y.token names' = .ok (t', names'') → Failed line eof names groups (x :: y :: ys) (.error ⟨y.span, .trailing⟩)

theorem failed_of_readFrom {f : ReadFailure} (h : (readFrom line eof names groups xs).1 = .error f) :
    Failed line eof names groups xs f := by
  induction xs generalizing names groups with
  | nil => cases h; exact .atEnd
  | cons x xs ih =>
    cases hx : x.token names with
    | error f' =>
      simp only [readFrom, hx] at h
      cases h
      exact .malformed xs hx
    | ok r =>
      simp only [readFrom, hx] at h
      cases hs : step line groups ⟨r.1, x.span⟩ with
      | error e =>
        simp only [hs] at h
        cases h
        exact .misplaced xs hx hs
      | ok p =>
        simp only [hs] at h
        cases p with
        | pending groups' => exact .later hx hs (ih h)
        | complete e =>
          cases xs with
          | nil => cases h
          | cons y ys =>
            cases hy : y.token r.2 with
            | error f' =>
              simp only [finish, hy] at h
              cases h
              exact .malformedAfter ys hx hs hy
            | ok r' =>
              simp only [finish, hy] at h
              cases h
              exact .trailing ys hx hs hy

/-- All lexemes have tokens and the reader takes them all, but the expression is not
    whole. -/
def RunsOut (line : Span) (names : NameTable) (groups : List OpenGroup) (xs : List Lexeme) : Prop :=
  (tokens names xs).2.1 = none ∧ ∃ groups', pending? line groups (tokens names xs).1 = some groups'

theorem RunsOut.cons {x : Lexeme} {t : Token} (hx : x.token names = .ok (t, names'))
    (hs : step line groups ⟨t, x.span⟩ = .ok (.pending groups')) (h : RunsOut line names' groups' xs) :
    RunsOut line names groups (x :: xs) := by
  rw [RunsOut, tokens_cons_ok hx, pending?_cons hs]
  exact h

/-- Reading that runs out of tokens blames the innermost open group, or the end if there
    is none. -/
theorem readFrom_of_runsOut (hstop : (tokens names xs).2.1 = none)
    (hgroups : pending? line groups (tokens names xs).1 = some groups') :
    (readFrom line eof names groups xs).1 = .error (.error (endError eof groups')) := by
  induction xs generalizing names groups with
  | nil => cases hgroups; rfl
  | cons x xs ih =>
    cases hx : x.token names with
    | error f => rw [tokens_cons_error hx] at hstop; cases hstop
    | ok r =>
      rw [tokens_cons_ok hx] at hstop hgroups
      rw [pending?] at hgroups
      split at hgroups
      · rename_i hs
        simp only [readFrom, hx, hs]
        exact ih hstop hgroups
      · cases hgroups

/-- A failure at a lexeme does not depend on what comes after that, nor on where the line
    ends. -/
theorem Failed.settled {e : ReadError} (h : Failed line eof names groups xs (.error e))
    (hstring : e.kind ≠ .unterminatedString) (hdeep : e.kind ≠ .nestingTooDeep) :
    RunsOut line names groups xs ∨ ∃ ys zs, xs = ys ++ zs ∧ (∀ y ∈ ys, y.shape ≠ .openString) ∧
      ∀ line' eof' zs', (readFrom line' eof' names groups (ys ++ zs')).1 = .error (.error e) := by
  generalize hf : ReadFailure.error e = f at h
  -- an open string would go on over what is added; no other lexeme does
  have closed : ∀ {y : Lexeme} {names : NameTable}, y.token names = .error (.error e) → y.shape ≠ .openString := by
    intro y names hy
    rcases Lexeme.kind_of_token_error hy with ⟨-, hk⟩ | ⟨hs, -⟩
    · exact absurd hk hstring
    · exact hs
  induction h with
  | atEnd => exact Or.inl ⟨rfl, _, rfl⟩
  | @malformed names groups x f xs hx =>
    subst hf
    refine Or.inr ⟨[x], xs, rfl, by simpa using closed hx, fun line' eof' zs' => ?_⟩
    simp only [List.cons_append, readFrom, hx]
  | @misplaced names names' groups x t e' xs hx hs =>
    cases hf
    refine Or.inr ⟨[x], xs, rfl, by simpa using Lexeme.shape_ne_openString_of_token hx, fun line' eof' zs' => ?_⟩
    simp only [List.cons_append, readFrom, hx, step_error_of_line hs hdeep line']
  | @later names names' groups groups' x t xs f hx hs _ ih =>
    rcases ih hf with hout | ⟨ys, zs, rfl, hys, hread⟩
    · exact Or.inl (hout.cons hx hs)
    · refine Or.inr ⟨x :: ys, zs, rfl, ?_, fun line' eof' zs' => ?_⟩
      · exact List.forall_mem_cons.mpr ⟨Lexeme.shape_ne_openString_of_token hx, hys⟩
      · simp only [List.cons_append, readFrom, hx, step_ok_of_line hs line']
        exact hread line' eof' zs'
  | @malformedAfter names names' groups x y t e' f ys hx hs hy =>
    subst hf
    refine Or.inr ⟨[x, y], ys, rfl, ?_, fun line' eof' zs' => ?_⟩
    · simpa using ⟨Lexeme.shape_ne_openString_of_token hx, closed hy⟩
    · simp only [List.cons_append, readFrom, hx, step_ok_of_line hs line', finish, hy]
  | @trailing names names' names'' groups x y t t' e' ys hx hs hy =>
    cases hf
    refine Or.inr ⟨[x, y], ys, rfl, ?_, fun line' eof' zs' => ?_⟩
    · simpa using ⟨Lexeme.shape_ne_openString_of_token hx, Lexeme.shape_ne_openString_of_token hy⟩
    · simp only [List.cons_append, readFrom, hx, step_ok_of_line hs line', finish, hy]

/-- A bracket among the tokens closes a group of the other kind. -/
def ClosesOther (line : Span) (groups : List OpenGroup) (ts : List PlacedToken) : Prop :=
  ∃ before t after g outer b, ts = before ++ t :: after ∧ pending? line groups before = some (g :: outer) ∧
    t.token = .closer b ∧ g.bracket ≠ b

theorem ClosesOther.cons {t : PlacedToken} {ts : List PlacedToken} (hs : step line groups t = .ok (.pending groups'))
    (h : ClosesOther line groups' ts) : ClosesOther line groups (t :: ts) := by
  obtain ⟨before, u, after, g, outer, b, rfl, hp, hu, hb⟩ := h
  exact ⟨t :: before, u, after, g, outer, b, rfl, by rw [pending?_cons hs, hp], hu, hb⟩

theorem ClosesOther.not_pending {ts : List PlacedToken} (h : ClosesOther line groups ts) : pending? line groups ts = none := by
  obtain ⟨before, t, after, g, outer, b, rfl, hp, ht, hb⟩ := h
  rw [pending?_append hp, pending?]
  have hs : step line (g :: outer) t = .error ⟨g.opener, .unbalanced⟩ := by
    simp only [step, ht, if_neg hb]
  rw [hs]

theorem closesOther_of_step {t : PlacedToken} {e : ReadError} (h : step line groups t = .error e)
    (hk : e.kind = .unbalancedDelimiter ∨ e.kind = .unexpectedEndOfInput) (ts : List PlacedToken) :
    ClosesOther line groups (t :: ts) := by
  rcases step_error_cases h with ⟨-, rfl⟩ | ⟨hkind, -⟩ | ⟨g, outer, b, rfl, ht, hb, -⟩
  · rcases hk with hk | hk <;> cases hk
  · rw [hkind] at hk
    rcases hk with hk | hk <;> cases hk
  · exact ⟨[], t, ts, g, outer, b, rfl, rfl, ht, hb⟩

/-- A bracket that is not closed is blamed where the tokens run out or where a bracket of
    the other kind closes. -/
theorem Failed.unclosed {e : ReadError} (h : Failed line eof names groups xs (.error e))
    (hk : e.kind = .unbalancedDelimiter ∨ e.kind = .unexpectedEndOfInput) :
    RunsOut line names groups xs ∨ ClosesOther line groups (tokens names xs).1 := by
  generalize hf : ReadFailure.error e = f at h
  have formed : ∀ {y : Lexeme} {names : NameTable}, y.token names ≠ .error (.error e) := by
    intro y names hy
    rcases Lexeme.kind_of_token_error hy with ⟨-, hy⟩ | ⟨-, hy | hy⟩ <;> rcases hk with hk | hk <;>
      exact nomatch hy.symm.trans hk
  induction h with
  | atEnd => exact Or.inl ⟨rfl, _, rfl⟩
  | malformed xs hx =>
    subst hf
    exact absurd hx formed
  | misplaced xs hx hs =>
    cases hf
    rw [tokens_cons_ok hx]
    exact Or.inr (closesOther_of_step hs hk _)
  | later hx hs _ ih =>
    rw [tokens_cons_ok hx]
    exact (ih hf).imp (RunsOut.cons hx hs) (ClosesOther.cons hs)
  | malformedAfter ys hx hs hy =>
    subst hf
    exact absurd hy formed
  | trailing ys hx hs hy =>
    cases hf
    rcases hk with hk | hk <;> cases hk

end Reader

end LineLisp
