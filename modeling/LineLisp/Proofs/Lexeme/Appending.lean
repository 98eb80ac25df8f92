/-
  LineLisp.Proofs.Lexeme.Appending — the tokens of two texts written one after the other.

  No lexeme looks past its own end, or behind its start. So a text that has all its tokens
  keeps them whatever follows, unless its last token is a keyword or a word that reaches
  its end and goes on there; and the text that follows has the tokens that it has by
  itself, or ends in the error that it has by itself, at places moved by the length of the
  first (`Source.tokens_of_joined_texts`).
-/

import LineLisp.Proofs.Expr.Failures
import LineLisp.Proofs.Lexeme.Joining
import LineLisp.Proofs.Lexeme.Moving
import LineLisp.Proofs.Lexeme.Munch
import LineLisp.Proofs.Spelled.Reading

namespace LineLisp

theorem Token.runsOn_shape (t : Token) : t.shape.runsOn = t.runsOn := by
  cases t <;> rfl

/-- Where tokens stop, and why, is the same with every table. -/
theorem stop_tokens (names names' : NameTable) (xs : List Lexeme) : (tokens names xs).2.1 = (tokens names' xs).2.1 := by
  induction xs generalizing names names' with
  | nil => rfl
  | cons x xs ih =>
    have hx := x.token_spells names
    have hx' := x.token_spells names'
    cases h : x.token names with
    | error f =>
      rw [h] at hx
      generalize Spelled.token x = y at hx hx'
      cases hx
      generalize h' : x.token names' = r at hx'
      cases hx'
      rw [tokens_cons_error h, tokens_cons_error h']
    | ok p =>
      rw [h] at hx
      generalize Spelled.token x = y at hx hx'
      cases hx
      generalize h' : x.token names' = r at hx'
      cases hx'
      rw [tokens_cons_ok h, tokens_cons_ok h', ih]

namespace Source

variable {src : Source} {names : NameTable}

/-- The last token is a keyword or a word that reaches the end of the text. -/
def EndsRunning (src : Source) (names : NameTable) : Prop :=
  ∃ t, (src.tokens names).1.getLast? = some t ∧ t.token.runsOn = true ∧ t.span.hi = src.span.hi

/-- A lexeme that reaches the end of the text is the last one. -/
theorem getLast?_lexemes {x : Lexeme} (hx : x ∈ src.lexemes) (hend : x.span.hi = src.span.hi) :
    src.lexemes.getLast? = some x := by
  obtain ⟨before, after, hsplit⟩ := List.append_of_mem hx
  cases after with
  | nil => rw [hsplit, List.getLast?_append]; rfl
  | cons y after =>
    have hall : src.lexemes.Pairwise Lexeme.Before := Lexeme.pairwise_before_ofChars src.start src.text
    rw [hsplit] at hall
    have hbefore : x.Before y := (List.pairwise_cons.mp (List.pairwise_append.mp hall).2.1).1 y List.mem_cons_self
    have hy : y ∈ src.lexemes := by rw [hsplit]; simp
    obtain ⟨-, hhi⟩ := of_decide_eq_true (cut_of_mem_lexemes hy).2.2
    have hlt := lo_lt_hi_of_mem_lexemes hy
    have hle : x.span.hi ≤ y.span.lo := hbefore
    omega

/-- A keyword or a word that reaches the end of the text is its last token. -/
theorem endsRunning_of_lexeme (h : (src.tokens names).2.1 = none) {x : Lexeme} (hx : x ∈ src.lexemes)
    (hrun : x.shape.runsOn = true) (hend : x.span.hi = src.span.hi) : src.EndsRunning names := by
  have htokens : List.Forall₂ _ src.lexemes (src.tokens names).1 := (forall₂_of_tokens h).flip
  obtain ⟨t, ht, hspan, n, n', htoken, -⟩ := exists_getLast?_of_forall₂ htokens (getLast?_lexemes hx hend)
  refine ⟨t, ht, ?_, hspan ▸ hend⟩
  rw [← Token.runsOn_shape, ← Lexeme.shape_of_token htoken]
  exact hrun

theorem lexemes_of_joined_texts (a b : List Char) (start : Int) (h : (tokens ⟨a, start⟩ names).2.1 = none)
    (hjoin : ¬ EndsRunning ⟨a, start⟩ names ∨ Lexeme.Ends b) :
    lexemes ⟨a ++ b, start⟩ = lexemes ⟨a, start⟩ ++ (lexemes ⟨b, start⟩).map (Lexeme.move a.length) := by
  have hclosed := Lexeme.shape_ne_openString_of_tokens h
  have hended : ∀ x ∈ lexemes ⟨a, start⟩, x.shape.runsOn = true → x.span.hi = start + a.length → Lexeme.Ends b := by
    intro x hx hrun hend
    exact hjoin.resolve_left fun hno => hno (endsRunning_of_lexeme h hx hrun hend)
  have hfirst : Lexeme.Scan start a (lexemes ⟨a, start⟩) := Lexeme.scan_ofChars start a
  have hsecond := Lexeme.scan_ofChars (start + a.length) b
  rw [Lexeme.ofChars_move] at hsecond
  exact Lexeme.scan_iff.mp (hfirst.append_of_ended hclosed hended hsecond)

/-- A text whose tokens are all there, with another after it that the last token does not
    go on into: the tokens are those of the first and then those of the second by itself,
    moved by the length of the first; so is the failure they end in; and the names are
    those of lexing the first and then the second. Why the second fails by itself does not
    depend on the names that are there. -/
theorem tokens_of_joined_texts (a b : List Char) (start : Int) (names : NameTable)
    (h : (tokens ⟨a, start⟩ names).2.1 = none) (hjoin : ¬ EndsRunning ⟨a, start⟩ names ∨ Lexeme.Ends b) :
    let first := tokens ⟨a, start⟩ names
    let second := tokens ⟨b, start⟩ first.2.2
    tokens ⟨a ++ b, start⟩ names =
      (first.1 ++ second.1.map (PlacedToken.move a.length), second.2.1.map (ReadFailure.move a.length), second.2.2) ∧
    ∀ table, (tokens ⟨b, start⟩ table).2.1 = second.2.1 := by
  intro first second
  refine ⟨?_, fun table => stop_tokens _ _ _⟩
  rw [tokens, lexemes_of_joined_texts a b start h hjoin, tokens_append h, tokens_map_move]
  rfl

/-- A keyword that the next text ends with a quote, and a string that is open at the end. -/
theorem tokens_of_joined_texts_at_quote :
    let a := "(f :k".toList
    let b := "\"s\" [f \"o".toList
    let second := tokens ⟨b, 3⟩ (tokens ⟨a, 3⟩ .empty).2.2
    (tokens ⟨a, 3⟩ .empty).2.1 = none ∧ Lexeme.Ends b ∧
      tokens ⟨a ++ b, 3⟩ .empty =
        ((tokens ⟨a, 3⟩ .empty).1 ++ second.1.map (PlacedToken.move 5), second.2.1.map (ReadFailure.move 5), second.2.2) ∧
      (tokens ⟨a ++ b, 3⟩ .empty).2.1 = some (.error ⟨Span.ofLength 15 2, .openString⟩) := by
  intro a b second
  have hall : (tokens ⟨a, 3⟩ .empty).2.1 = none := by decide +kernel
  have hends : Lexeme.Ends b := Lexeme.ends_cons (by decide) _
  obtain ⟨hjoined, -⟩ := tokens_of_joined_texts a b 3 .empty hall (Or.inr hends)
  exact ⟨hall, hends, hjoined, by decide +kernel⟩

end Source

end LineLisp
