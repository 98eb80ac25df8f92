/-
  LineLisp.Proofs.Lexeme.Layout — where the lexemes of a line stand, and the tokens
  they become. Lexemes come in order and do not overlap (`pairwise_before_ofChars`), a
  bracket is one character wide (`width_ofChars`), and so are the brackets among the
  tokens of a line, which come in the same order (`layout_tokens`).
-/

import LineLisp.Reading

namespace LineLisp

/-! ## Lexemes -/

def Shape.isBracket : Shape → Bool
  | opener _ | closer _ => true
  | _ => false

namespace Lexeme

/-- Whether a lexeme ends before another starts. -/
def Before (x y : Lexeme) : Prop := x.span.hi ≤ y.span.lo

theorem extent_of_isBracket {c : Char} {rest : List Char} (h : (extent c rest).1.isBracket = true) :
    (extent c rest).2 = 0 := by
  revert h
  unfold extent
  split
  · intro _; rfl
  · intro _; rfl
  · intro _; rfl
  · intro _; rfl
  · split <;> intro h <;> cases h
  · intro h; cases h
  · intro h; cases h

theorem le_pos_ofChars {pos : Int} {cs : List Char} : ∀ x ∈ ofChars pos cs, pos ≤ x.pos := by
  fun_induction ofChars pos cs with
  | case1 => intro x hx; cases hx
  | case2 pos c rest _ ih => intro x hx; have := ih x hx; omega
  | case3 pos c rest _ shape n _ ih =>
    intro x hx
    rcases List.mem_cons.mp hx with rfl | hx
    · exact Int.le_refl _
    · have := ih x hx; omega

theorem pairwise_before_ofChars (pos : Int) (cs : List Char) : (ofChars pos cs).Pairwise Before := by
  fun_induction ofChars pos cs with
  | case1 => exact .nil
  | case2 pos c rest _ ih => exact ih
  | case3 pos c rest _ shape n _ ih =>
    refine List.pairwise_cons.mpr ⟨fun y hy => ?_, ih⟩
    have hp := le_pos_ofChars y hy
    have hl : (rest.take n).length ≤ n := List.length_take_le ..
    simp only [Before, span, Span.ofLength, List.length_cons]
    omega

theorem width_ofChars {pos : Int} {cs : List Char} :
    ∀ x ∈ ofChars pos cs, x.shape.isBracket = true → x.span = Span.ofLength x.pos 1 := by
  fun_induction ofChars pos cs with
  | case1 => intro x hx; cases hx
  | case2 pos c rest _ ih => exact ih
  | case3 pos c rest _ shape n he ih =>
    intro x hx hb
    rcases List.mem_cons.mp hx with rfl | hx
    · have hz : (extent c rest).1.isBracket = true → (extent c rest).2 = 0 := extent_of_isBracket
      rw [he] at hz
      have hn : n = 0 := hz hb
      subst hn
      rfl
    · exact ih x hx hb

end Lexeme

/-! ## Tokens -/

def Token.isBracket : Token → Bool
  | .opener _ | .closer _ => true
  | _ => false

namespace PlacedToken

def Before (s t : PlacedToken) : Prop := s.span.hi ≤ t.span.lo

/-- A bracket is one character wide. -/
def Narrow (t : PlacedToken) : Prop :=
  t.token.isBracket = true → t.span = Span.ofLength t.span.lo 1

end PlacedToken

/-- Tokens in the order of their places, with brackets one character wide. -/
structure Layout (ts : List PlacedToken) : Prop where
  ordered : ts.Pairwise PlacedToken.Before
  narrow : ∀ t ∈ ts, t.Narrow

theorem Layout.append_left {ts us : List PlacedToken} (h : Layout (ts ++ us)) : Layout ts :=
  ⟨(List.pairwise_append.mp h.ordered).1, fun t ht => h.narrow t (List.mem_append_left us ht)⟩

/-- A reserved word is no bracket. -/
theorem Token.isBracket_of_reserved? {word : String} {t : Token} (h : reserved? word = some t) :
    t.isBracket = false := by
  have hall : ∀ p ∈ reserved, p.2.isBracket = false := by decide
  obtain ⟨l₁, l₂, hl, -⟩ := List.lookup_eq_some_iff.mp h
  exact hall (word, t) (hl ▸ by simp)

/-- A token is a bracket exactly if its lexeme is. -/
theorem Lexeme.isBracket_token {names names' : NameTable} {x : Lexeme} {t : Token}
    (h : x.token names = .ok (t, names')) : t.isBracket = x.shape.isBracket := by
  unfold token at h
  cases hs : x.shape <;> simp only [hs] at h ⊢
  case opener b => cases h; rfl
  case closer b => cases h; rfl
  case string => cases h; rfl
  case openString => cases h
  case keyword =>
    split at h
    · cases h
    · cases h; rfl
  case word =>
    unfold wordToken at h
    split at h
    · rename_i hr; cases h; exact Token.isBracket_of_reserved? hr
    · repeat' split at h
      all_goals cases h
      all_goals rfl

theorem tokens_cons_error {names : NameTable} {x : Lexeme} {f : ReadFailure} (h : x.token names = .error f)
    (xs : List Lexeme) : tokens names (x :: xs) = ([], some f, names) := by
  rw [tokens, h]

theorem tokens_cons_ok {names names' : NameTable} {x : Lexeme} {t : Token}
    (h : x.token names = .ok (t, names')) (xs : List Lexeme) :
    tokens names (x :: xs) = (⟨t, x.span⟩ :: (tokens names' xs).1, (tokens names' xs).2) := by
  rw [tokens, h]

/-- The tokens stand where the first lexemes stand, and are brackets where they are. -/
theorem tokens_prefix (names : NameTable) (xs : List Lexeme) :
    ∃ ys zs, xs = ys ++ zs ∧
      (tokens names xs).1.map (fun t => (t.token.isBracket, t.span)) = ys.map fun x => (x.shape.isBracket, x.span) := by
  induction xs generalizing names with
  | nil => exact ⟨[], [], rfl, rfl⟩
  | cons x xs ih =>
    cases h : x.token names with
    | error f => exact ⟨[], x :: xs, rfl, by rw [tokens_cons_error h]; rfl⟩
    | ok r =>
      obtain ⟨ys, zs, hxs, hts⟩ := ih r.2
      refine ⟨x :: ys, zs, by rw [hxs]; rfl, ?_⟩
      rw [tokens_cons_ok h]
      simp only [List.map_cons, hts, Lexeme.isBracket_token h]

theorem layout_tokens (src : Source) (names : NameTable) : Layout (src.tokens names).1 := by
  obtain ⟨ys, zs, hxs, hts⟩ := tokens_prefix names src.lexemes
  have hmem : ∀ y ∈ ys, y ∈ src.lexemes := fun y hy => hxs ▸ List.mem_append_left zs hy
  constructor
  · have hb : ys.Pairwise Lexeme.Before := by
      have hall : src.lexemes.Pairwise Lexeme.Before := Lexeme.pairwise_before_ofChars src.start src.text
      rw [hxs] at hall
      exact (List.pairwise_append.mp hall).1
    have hp : (ys.map fun x => (x.shape.isBracket, x.span)).Pairwise fun p q => p.2.hi ≤ q.2.lo :=
      List.pairwise_map.mpr hb
    rw [← hts, List.pairwise_map] at hp
    exact hp
  · intro t ht hb
    have hm : (t.token.isBracket, t.span) ∈ ys.map fun x => (x.shape.isBracket, x.span) :=
      hts ▸ List.mem_map_of_mem ht
    obtain ⟨y, hy, he⟩ := List.mem_map.mp hm
    obtain ⟨hyb, hys⟩ := Prod.mk.injEq .. ▸ he
    have hw := Lexeme.width_ofChars y (hmem y hy) (hyb.trans hb)
    rw [← hys, hw]
    rfl

end LineLisp
