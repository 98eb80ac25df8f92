/-
  LineLisp.Proofs.Expr.Interning — which names reading interns.

  The reader asks for one token after another (`pulledOf`), and what a token interns goes
  by the text of its lexeme (`names_of_token`). So the table after reading is the old one with
  the new texts of the names among the tokens that were asked for (`names_readFrom_pulled`).
  Which tokens these are depends on how reading ended, and is said without the reader: all
  of them, or those up to the first that no expression goes on with (`pulled_readFrom`).
-/

import LineLisp.Proofs.Expr.Prefixes
import LineLisp.Proofs.Expr.Spans

namespace LineLisp

open Grammar

/-! ## The names of tokens -/

/-- The text that a token of a line interns. -/
def PlacedToken.nameText? (src : Source) (t : PlacedToken) : Option Glyphs := t.token.nameText? (src.slice t.span)

/-- Whether a failure is that of a lexeme by itself. -/
def ReadFailure.isMalformed : ReadFailure → Bool
  | .tooManyDigits _ => true
  | .error e => e.kind == .invalidInteger || e.kind == .invalidKeyword || e.kind == .unterminatedString

theorem Lexeme.isMalformed_of_token_error {names : NameTable} {x : Lexeme} {f : ReadFailure}
    (h : x.token names = .error f) : f.isMalformed = true := by
  cases f with
  | tooManyDigits n => rfl
  | error e => rcases kind_of_token_error h with ⟨-, hk⟩ | ⟨-, hk | hk⟩ <;> simp [ReadFailure.isMalformed, hk]

/-- How an error of the reader goes by the token at which it stopped: a token out of place is
    blamed itself, a bracket that is left open is noticed at one that closes another kind,
    and the limit of brackets at one more that opens. -/
def ReadError.StoppedAt (e : ReadError) (t : PlacedToken) : Prop :=
  (e.kind = .unexpectedToken ∧ e.span = t.span) ∨ (e.kind = .unbalancedDelimiter ∧ ∃ b, t.token = .closer b) ∨
    (e.kind = .nestingTooDeep ∧ ∃ b, t.token = .opener b)

namespace Reader

variable {line eof : Span} {groups groups' : List OpenGroup} {names names' : NameTable} {xs : List Lexeme}
  {t : PlacedToken} {ts pulled : List PlacedToken} {stop : Option ReadFailure} {result : Except ReadFailure Expr}

theorem stoppedAt_of_step {e : ReadError} (h : step line groups t = .error e) : e.StoppedAt t := by
  rcases step_error_cases h with ⟨hopener, rfl⟩ | hblamed | ⟨g, outer, b, -, hcloser, -, rfl⟩
  · exact Or.inr (Or.inr ⟨rfl, hopener⟩)
  · exact Or.inl hblamed
  · exact Or.inr (Or.inl ⟨rfl, b, hcloser⟩)

/-! ## The tokens that the reader asks for -/

/-- Of the tokens of a line, those that the reader asks for: as many as it takes, and the
    one that it does not go on with. -/
def pulledOf (line : Span) : List OpenGroup → List PlacedToken → List PlacedToken
  | _, [] => []
  | groups, t :: ts =>
    match step line groups t with
    | .error _ => [t]
    | .ok (.pending groups) => t :: pulledOf line groups ts
    | .ok (.complete _) => t :: ts.take 1

theorem internAll_names_cons {src : Source} {x : Lexeme} {t : Token} (h : x.token names = .ok (t, names'))
    (hx : src.slice x.span = x.text) (ts : List PlacedToken) :
    names.internAll ((⟨t, x.span⟩ :: ts).filterMap (PlacedToken.nameText? src))
      = names'.internAll (ts.filterMap (PlacedToken.nameText? src)) := by
  have htext : PlacedToken.nameText? src ⟨t, x.span⟩ = t.nameText? x.text := congrArg t.nameText? hx
  rw [Lexeme.names_of_token h, ← htext]
  cases hname : PlacedToken.nameText? src ⟨t, x.span⟩ with
  | none => rw [List.filterMap_cons_none hname]; rfl
  | some s => rw [List.filterMap_cons_some hname]; rfl

/-- After the expression one more token is asked for, to see whether there is one. -/
theorem names_finish_pulled {src : Source} {e : Expr} (htexts : ∀ x ∈ xs, src.slice x.span = x.text) :
    (finish e names xs).2 = names.internAll (((tokens names xs).1.take 1).filterMap (PlacedToken.nameText? src)) := by
  cases xs with
  | nil => rfl
  | cons x xs =>
    obtain ⟨hx, -⟩ := List.forall_mem_cons.mp htexts
    cases htoken : x.token names with
    | error f =>
      rw [tokens_cons_error htoken]
      simp only [finish, htoken]
      rfl
    | ok r =>
      rw [tokens_cons_ok htoken]
      simp only [finish, htoken]
      exact (internAll_names_cons htoken hx []).symm

/-- Reading interns the names of the tokens that it asks for, in their order. -/
theorem names_readFrom_pulled {src : Source} (htexts : ∀ x ∈ xs, src.slice x.span = x.text) :
    (readFrom line eof names groups xs).2
      = names.internAll ((pulledOf line groups (tokens names xs).1).filterMap (PlacedToken.nameText? src)) := by
  induction xs generalizing names groups with
  | nil => rfl
  | cons x xs ih =>
    obtain ⟨hx, hxs⟩ := List.forall_mem_cons.mp htexts
    cases htoken : x.token names with
    | error f =>
      rw [tokens_cons_error htoken]
      simp only [readFrom, htoken]
      rfl
    | ok r =>
      rw [tokens_cons_ok htoken]
      simp only [readFrom, htoken, pulledOf]
      cases step line groups ⟨r.1, x.span⟩ with
      | error e => exact (internAll_names_cons htoken hx []).symm
      | ok p =>
        cases p with
        | pending groups' => exact (ih hxs).trans (internAll_names_cons htoken hx _).symm
        | complete e => exact (names_finish_pulled hxs).trans (internAll_names_cons htoken hx _).symm

/-! ## Where the reader stopped -/

/-- Which tokens were asked for of a line that has these tokens and then stops, by how
    reading ended; `goesOn` tells whether an expression goes on after tokens. -/
inductive Pulled (goesOn : List PlacedToken → Prop) (ts : List PlacedToken) (stop : Option ReadFailure) :
    Except ReadFailure Expr → List PlacedToken → Prop
  /-- An expression is made of all tokens of the line. -/
  | whole {e : Expr} : stop = none → Pulled goesOn ts stop (.ok e) ts
  /-- A lexeme that has no token comes after all that have one. -/
  | malformed {f : ReadFailure} : f.isMalformed = true → stop = some f → goesOn ts →
      Pulled goesOn ts stop (.error f) ts
  /-- A token is the first that no expression goes on with. -/
  | stopped {before after : List PlacedToken} {t : PlacedToken} {e : ReadError} : ts = before ++ t :: after →
      goesOn before → ¬ goesOn (before ++ [t]) → e.StoppedAt t → Pulled goesOn ts stop (.error (.error e)) (before ++ [t])
  /-- The tokens run out before the expression is whole. -/
  | ranOut {e : ReadError} : stop = none → goesOn ts →
      (e.kind = .unbalancedDelimiter ∨ e.kind = .unexpectedEndOfInput) → Pulled goesOn ts stop (.error (.error e)) ts

/-- A token that the reader takes is one more that was asked for. -/
theorem Pulled.cons (hs : step line groups t = .ok (.pending groups'))
    (h : Pulled (CanGoOn line groups') ts stop result pulled) :
    Pulled (CanGoOn line groups) (t :: ts) stop result (t :: pulled) := by
  cases h with
  | whole hstop => exact .whole hstop
  | malformed hf hstop hgo => exact .malformed hf hstop ((canGoOn_cons_of_pending hs).mpr hgo)
  | stopped hts hgo hno he =>
    exact .stopped (congrArg (t :: ·) hts) ((canGoOn_cons_of_pending hs).mpr hgo)
      (fun hgo => hno ((canGoOn_cons_of_pending hs).mp hgo)) he
  | ranOut hstop hgo hk => exact .ranOut hstop ((canGoOn_cons_of_pending hs).mpr hgo) hk

theorem pulled_finish {e : Expr} (hs : step line groups t = .ok (.complete e)) :
    Pulled (CanGoOn line groups) (t :: (tokens names xs).1) (tokens names xs).2.1 (finish e names xs).1
      (t :: (tokens names xs).1.take 1) := by
  have hwhole : CanGoOn line groups [t] := (canGoOn_cons_of_complete hs).mpr rfl
  cases xs with
  | nil => exact .whole rfl
  | cons x xs =>
    cases hx : x.token names with
    | error f =>
      rw [tokens_cons_error hx]
      simp only [finish, hx]
      exact .malformed (Lexeme.isMalformed_of_token_error hx) rfl hwhole
    | ok r =>
      have hno : ¬ CanGoOn line groups ([t] ++ [⟨r.1, x.span⟩]) := by
        intro hgo
        cases (canGoOn_cons_of_complete hs).mp hgo
      rw [tokens_cons_ok hx]
      simp only [finish, hx]
      exact @Pulled.stopped _ _ _ [t] _ _ _ rfl hwhole hno (Or.inl ⟨rfl, rfl⟩)

/-- The tokens that the reader asks for are those up to where it stops. -/
theorem pulled_readFrom :
    Pulled (CanGoOn line groups) (tokens names xs).1 (tokens names xs).2.1 (readFrom line eof names groups xs).1
      (pulledOf line groups (tokens names xs).1) := by
  induction xs generalizing names groups with
  | nil =>
    refine .ranOut rfl (canGoOn_nil line groups) ?_
    cases groups with
    | nil => exact Or.inr rfl
    | cons g outer => exact Or.inl rfl
  | cons x xs ih =>
    cases hx : x.token names with
    | error f =>
      rw [tokens_cons_error hx]
      simp only [readFrom, hx]
      exact .malformed (Lexeme.isMalformed_of_token_error hx) rfl (canGoOn_nil line groups)
    | ok r =>
      rw [tokens_cons_ok hx]
      cases hs : step line groups ⟨r.1, x.span⟩ with
      | error e =>
        simp only [readFrom, hx, pulledOf, hs]
        exact @Pulled.stopped _ _ _ [] _ _ _ rfl (canGoOn_nil line groups) (not_canGoOn_cons_of_error hs) (stoppedAt_of_step hs)
      | ok p =>
        cases p with
        | pending groups' =>
          simp only [readFrom, hx, pulledOf, hs]
          exact ih.cons hs
        | complete e =>
          simp only [readFrom, hx, pulledOf, hs]
          exact pulled_finish hs

end Reader

namespace Source

/-- Which tokens of a line reading asked for, by how it ended. -/
abbrev Pulled (src : Source) (names : NameTable) : Except ReadFailure Expr → List PlacedToken → Prop :=
  Reader.Pulled (fun ts => Viable Reader.maxOpen (ts.map (·.token))) (src.tokens names).1 (src.tokens names).2.1

/-- Reading a line interns the names of the tokens that it asks for. -/
theorem names_read (src : Source) (names : NameTable) : (src.read names).2 =
    names.internAll ((Reader.pulledOf src.span [] (src.tokens names).1).filterMap (PlacedToken.nameText? src)) :=
  Reader.names_readFrom_pulled fun _ hx => (cut_of_mem_lexemes hx).2.1

theorem pulled_read (src : Source) (names : NameTable) :
    src.Pulled names (src.read names).1 (Reader.pulledOf src.span [] (src.tokens names).1) := by
  have hviable : Reader.CanGoOn src.span [] = fun ts => Viable Reader.maxOpen (ts.map (·.token)) :=
    funext fun ts => propext Reader.canGoOn_iff_viable
  rw [Pulled, ← hviable]
  exact Reader.pulled_readFrom

end Source

/-- The names in an expression have the texts that they have in the line, and no symbol is
    a reserved word. -/
structure Expr.NamedAsWritten (src : Source) (table : NameTable) (e : Expr) : Prop where
  symbol : ∀ span name, .atom span (.symbol name) ∈ e.nodes →
    table.text? name = some (.ofChars (src.slice span)) ∧ ∀ t, (String.ofList (src.slice span), t) ∉ Token.reserved
  keyword : ∀ span name, .atom span (.keyword name) ∈ e.nodes →
    ∃ text, src.slice span = ':' :: text ∧ table.text? name = some (.ofChars text)

namespace Source

/-- Reading a line adds to the table the new texts of the symbols and keywords among the
    tokens that it asked for, each once and in the order of their first places, and nothing
    else; every name that was there keeps its text. These are all tokens if an expression is
    read or the tokens run out before it is whole, those before a malformed lexeme, or those
    up to the first that no expression goes on with. The names in an expression that is
    read have the texts that stand in the line, and a reserved word is no symbol, also if the
    table has it as the name of a keyword. -/
theorem reading_interns_pulled_names (src : Source) (names : NameTable) :
    (∃ pulled, src.Pulled names (src.read names).1 pulled ∧
      (src.read names).2.texts
        = names.texts ++ ((pulled.filterMap (PlacedToken.nameText? src)).filter (· ∉ names.texts)).eraseDups) ∧
    (∀ name text, names.text? name = some text → (src.read names).2.text? name = some text) ∧
    ∀ e, (src.read names).1 = .ok e → e.NamedAsWritten src (src.read names).2 := by
  refine ⟨⟨_, src.pulled_read names, ?_⟩, fun name text => ?_, fun e he => ?_⟩
  · rw [← NameTable.texts_internAll, ← names_read]
  · rw [names_read]
    exact NameTable.text?_of_grows (names.grows_internAll _)
  · have hread : src.read names = (.ok e, (src.read names).2) := Prod.ext he rfl
    exact ⟨fun span name hn => (written_of_atom hread hn rfl).of_symbol,
      fun span name hn => (written_of_atom hread hn rfl).of_keyword⟩

/-- A keyword that is called as an operator is, after a name that is there already. -/
theorem reading_interns_pulled_names_reserved :
    let src : Source := ⟨"(f :if g f)".toList, 4⟩
    let names := (NameTable.empty.intern (.ofString "f")).2
    ∃ e, (src.read names).1 = .ok e ∧ (src.read names).2.texts = ["f", "if", "g"].map Glyphs.ofString ∧
      (src.read names).2.text? 0 = some (.ofString "f") ∧ e.NamedAsWritten src (src.read names).2 := by
  intro src names
  have hread : (src.read names).1.toOption.isSome = true := by decide +kernel
  obtain ⟨e, he⟩ := Option.isSome_iff_exists.mp hread
  have he : (src.read names).1 = .ok e := eq_ok_of_toOption he
  obtain ⟨-, hkept, hnamed⟩ := reading_interns_pulled_names src names
  exact ⟨e, he, by decide +kernel, hkept 0 _ rfl, hnamed e he⟩

/-- Reading stops at the bracket that closes the other kind, and what comes after it is not
    interned. -/
example : ((⟨"(f :a [g f) :h".toList, 0⟩ : Source).read .empty).2.texts = ["f", "a", "g"].map Glyphs.ofString := by
  decide +kernel

end Source

end LineLisp
