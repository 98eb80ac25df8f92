/-
  LineLisp.Proofs.Lexeme.Munch — the tokens of a line are its maximal munch.

  The tokens of a line stand in order, each is what its text is written for, and a
  keyword or a word goes on as far as it can; between the tokens are separators only.
  They go on to the end of the line or to the first lexeme that is flawed
  (`Source.tokens_maximal_munch`).
-/

import LineLisp.Proofs.Lexeme.Writing

namespace LineLisp

/-- A token that goes on over its text as a keyword or a word does. -/
def Token.runsOn : Token → Bool
  | .opener _ | .closer _ | .string => false
  | _ => true

namespace Source

/-- Where tokens stop that stop at position `p`: at the end of the line, or at a lexeme
    that is flawed. An open string goes on to the end of the line, every other flawed
    lexeme as far as a keyword or a word does. -/
def StopsAt (src : Source) (p : Int) : Option ReadFailure → Prop
  | none => p = src.span.hi
  | some f => ∃ span : Span, span.lo = p ∧ src.span.contains span = true ∧ Lexeme.Flawed span (src.slice span) f ∧
      Lexeme.Ends (src.after span.hi) ∧ (f = .error ⟨span, .openString⟩ → span.hi = src.span.hi)

/-- Tokens that take a line apart from its start, each as far as it can go, until the
    line ends or a lexeme is flawed. -/
structure MaximalMunch (src : Source) (names : NameTable) (ts : List PlacedToken) (stop : Option ReadFailure) :
    Prop where
  nonempty : ∀ t ∈ ts, t.span.lo < t.span.hi
  inside : ∀ t ∈ ts, src.span.contains t.span = true
  ordered : ts.Pairwise PlacedToken.Before
  /-- The text of a token decides what it is. -/
  written : ∀ t ∈ ts, ∀ k, Lexeme.Written names (src.slice t.span) k ↔ k = t.token
  sound : ∀ t ∈ ts, ∀ f, ¬ Lexeme.Flawed t.span (src.slice t.span) f
  maximal : ∀ t ∈ ts, t.token.runsOn = true → Lexeme.Ends (src.after t.span.hi)
  /-- What is in no token separates. -/
  stops : ∃ p, src.StopsAt p stop ∧ (∀ t ∈ ts, t.span.hi ≤ p) ∧
    ∀ (i : Nat) (c : Char), src.text[i]? = some c → src.start + i < p →
      (∀ t ∈ ts, ¬ (t.span.lo ≤ src.start + i ∧ src.start + i < t.span.hi)) → Lexeme.isSeparator c = true

/-- A token that goes on as a keyword or a word does ends where these do. -/
theorem ends_of_runsOn {names names' : NameTable} {x : Lexeme} {t : Token} {rest : List Char}
    (hc : Lexeme.Cut x.shape x.text rest) (h : x.token names = .ok (t, names')) (hr : t.runsOn = true) :
    Lexeme.Ends rest := by
  obtain ⟨shape, text, pos⟩ := x
  cases hc with
  | opener b => cases h; cases hr
  | closer b => cases h; cases hr
  | string _ _ => cases h; cases hr
  | openString _ => cases h
  | keyword _ he => exact he
  | word _ _ he => exact he

/-- A lexeme without a token goes on as far as it can, an open string to the end. -/
theorem ends_of_token_error {names : NameTable} {x : Lexeme} {f : ReadFailure} {rest : List Char}
    (hc : Lexeme.Cut x.shape x.text rest) (h : x.token names = .error f) :
    Lexeme.Ends rest ∧ (f = .error ⟨x.span, .openString⟩ → rest = []) := by
  have hf := Lexeme.flawed_of_token hc h
  obtain ⟨shape, text, pos⟩ := x
  cases hc with
  | opener b => cases h
  | closer b => cases h
  | string _ _ => cases h
  | openString _ => exact ⟨Lexeme.ends_nil, fun _ => rfl⟩
  | keyword _ he =>
    refine ⟨he, fun hq => ?_⟩
    rw [hq] at hf
    cases hf
  | word _ hr he =>
    refine ⟨he, fun hq => ?_⟩
    rw [hq] at hf
    cases hf
    exact absurd (hr '"' (by simp)) (by decide)

/-- A span inside the line with nothing after it ends where the line does. -/
theorem hi_eq_of_after_eq_nil {src : Source} {span : Span} (hin : src.span.contains span = true)
    (h : src.after span.hi = []) : span.hi = src.span.hi := by
  obtain ⟨hlo, hhi⟩ : src.start ≤ span.lo ∧ span.hi ≤ src.start + src.text.length := of_decide_eq_true hin
  have hlen : src.text.length ≤ (span.hi - src.start).toNat := List.drop_eq_nil_iff.mp h
  have hle := span.lo_le_hi
  show span.hi = src.start + src.text.length
  omega

theorem stopsAt_of_token_error {src : Source} {names : NameTable} {x : Lexeme} {f : ReadFailure}
    (hx : x ∈ src.lexemes) (h : x.token names = .error f) : src.StopsAt x.span.lo (some f) := by
  obtain ⟨hc, hs, hin⟩ := cut_of_mem_lexemes hx
  obtain ⟨he, hnil⟩ := ends_of_token_error hc h
  refine ⟨x.span, rfl, hin, ?_, he, fun hq => hi_eq_of_after_eq_nil hin (hnil hq)⟩
  rw [hs]
  exact Lexeme.flawed_of_token hc h

/-- The tokens end where the first lexeme without one starts, or else the line ends. -/
theorem exists_stop {src : Source} {ys zs : List Lexeme} {stop : Option ReadFailure} (hxs : src.lexemes = ys ++ zs)
    (hzs : match stop with
      | none => zs = []
      | some f => ∃ z rest n, zs = z :: rest ∧ Lexeme.token n z = .error f) :
    ∃ p, src.StopsAt p stop ∧ (∀ y ∈ ys, y.span.hi ≤ p) ∧ ∀ z ∈ zs, p ≤ z.span.lo := by
  have hbefore : (ys ++ zs).Pairwise Lexeme.Before := hxs ▸ Lexeme.pairwise_before_ofChars src.start src.text
  cases stop with
  | none =>
    subst hzs
    refine ⟨src.span.hi, rfl, fun y hy => ?_, fun z hz => nomatch hz⟩
    have hmem : y ∈ src.lexemes := hxs ▸ List.mem_append_left [] hy
    have hin := (cut_of_mem_lexemes hmem).2.2
    simp only [Span.contains, decide_eq_true_eq] at hin
    exact hin.2
  | some f =>
    obtain ⟨z, rest, n, rfl, hz⟩ := hzs
    obtain ⟨-, hrest, hcross⟩ := List.pairwise_append.mp hbefore
    have hmem : z ∈ src.lexemes := hxs ▸ List.mem_append_right ys List.mem_cons_self
    refine ⟨z.span.lo, stopsAt_of_token_error hmem hz, fun y hy => hcross y hy z List.mem_cons_self, fun w hw => ?_⟩
    rcases List.mem_cons.mp hw with rfl | hw
    · exact Int.le_refl _
    · have hzw : z.span.hi ≤ w.span.lo := (List.pairwise_cons.mp hrest).1 w hw
      exact Int.le_trans z.span.lo_le_hi hzw

theorem tokens_maximal_munch (src : Source) (names : NameTable) :
    src.MaximalMunch (src.tokens names).2.2 (src.tokens names).1 (src.tokens names).2.1 := by
  obtain ⟨ys, zs, hxs, hys, hzs⟩ := tokens_split names src.lexemes
  have hmem : ∀ y ∈ ys, y ∈ src.lexemes := fun y hy => hxs ▸ List.mem_append_left zs hy
  have hwritten : ∀ t ∈ (src.tokens names).1, Lexeme.Written (src.tokens names).2.2 (src.slice t.span) t.token := by
    intro t ht
    obtain ⟨y, hy, hspan, n, n', hn, hgrow⟩ := exists_of_forall₂_left hys ht
    obtain ⟨hc, hs, -⟩ := cut_of_mem_lexemes (hmem y hy)
    rw [hspan, hs]
    exact Lexeme.written_of_token hc hn hgrow
  constructor
  case nonempty =>
    intro t ht
    obtain ⟨y, hy, hspan, -⟩ := exists_of_forall₂_left hys ht
    rw [hspan]
    exact lo_lt_hi_of_mem_lexemes (hmem y hy)
  case inside =>
    intro t ht
    obtain ⟨y, hy, hspan, -⟩ := exists_of_forall₂_left hys ht
    rw [hspan]
    exact (cut_of_mem_lexemes (hmem y hy)).2.2
  case ordered => exact (layout_tokens src names).ordered
  case written =>
    intro t ht k
    exact ⟨fun hk => hk.unique (hwritten t ht), fun hk => hk ▸ hwritten t ht⟩
  case sound => exact fun t ht => (hwritten t ht).not_flawed t.span
  case maximal =>
    intro t ht hr
    obtain ⟨y, hy, hspan, n, n', hn, -⟩ := exists_of_forall₂_left hys ht
    rw [hspan]
    exact ends_of_runsOn (cut_of_mem_lexemes (hmem y hy)).1 hn hr
  case stops =>
    obtain ⟨p, hp, hle, hge⟩ := exists_stop hxs hzs
    refine ⟨p, hp, fun t ht => ?_, fun i c hc hi hout => ?_⟩
    · obtain ⟨y, hy, hspan, -⟩ := exists_of_forall₂_left hys ht
      rw [hspan]
      exact hle y hy
    · obtain hsep | ⟨x, hx, hlo, hhi⟩ := @Lexeme.separator_or_covered src.start src.text i c hc
      · exact hsep
      have hx : x ∈ ys ++ zs := hxs ▸ hx
      rcases List.mem_append.mp hx with hx | hx
      · obtain ⟨t, ht, hspan, -⟩ := exists_of_forall₂_right hys hx
        exact absurd ⟨hlo, hhi⟩ (hspan ▸ hout t ht)
      · have := hge x hx
        omega

end Source

end LineLisp
