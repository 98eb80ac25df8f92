/-
  LineLisp.Proofs.Lexeme.Moving — a line that starts elsewhere.

  Where a line starts shows in positions and in nothing else. Its lexemes are the same at
  places that are moved alike (`ofChars_move`), and so are its tokens and the failure they
  end in; the names they leave are the same (`tokens_map_move`). A part of the line has the
  same characters (`Source.slice_move`).
-/

import LineLisp.Proofs.Lexeme.Layout

namespace LineLisp

/-! ## Positions moved by a distance -/

def Span.move (d : Int) (s : Span) : Span := ⟨s.lo + d, s.hi + d, Int.add_le_add_right s.lo_le_hi d⟩

def Source.move (d : Int) (src : Source) : Source := ⟨src.text, src.start + d⟩

def Lexeme.move (d : Int) (x : Lexeme) : Lexeme := ⟨x.shape, x.text, x.pos + d⟩

def PlacedToken.move (d : Int) (t : PlacedToken) : PlacedToken := ⟨t.token, t.span.move d⟩

def ReadError.move (d : Int) (e : ReadError) : ReadError := ⟨e.span.move d, e.cause⟩

/-- A number of too many digits has no place. -/
def ReadFailure.move (d : Int) : ReadFailure → ReadFailure
  | error e => error (e.move d)
  | tooManyDigits n => tooManyDigits n

variable (d : Int)

@[simp] theorem Span.move_ofLength (pos : Int) (n : Nat) : (ofLength pos n).move d = ofLength (pos + d) n := by
  have hhi : pos + n + d = pos + d + n := by omega
  simp only [move, ofLength, hhi]

@[simp] theorem Span.length_move (s : Span) : (s.move d).length = s.length := by
  simp only [move, length]; omega

theorem Span.move_join (s t : Span) : (s.join t).move d = (s.move d).join (t.move d) := by
  simp only [move, join, mk.injEq]; omega

@[simp] theorem Lexeme.span_move (x : Lexeme) : (x.move d).span = x.span.move d := by
  rw [span, span, Span.move_ofLength]
  rfl

namespace Source

@[simp] theorem span_move (src : Source) : (src.move d).span = src.span.move d := by
  rw [span, span, Span.move_ofLength]
  rfl

@[simp] theorem eof_move (src : Source) : (src.move d).eof = src.eof.move d := by
  simp only [eof, Span.point, move, Span.move, Span.mk.injEq]; omega

@[simp] theorem slice_move (src : Source) (s : Span) : (src.move d).slice (s.move d) = src.slice s := by
  have hlo : s.lo + d - (src.start + d) = s.lo - src.start := by omega
  have hhi : s.hi + d - (src.start + d) = s.hi - src.start := by omega
  simp only [slice, move, Span.move, hlo, hhi]

theorem contains_move {src : Source} {s : Span} (h : src.span.contains s = true) :
    (src.move d).span.contains (s.move d) = true := by
  obtain ⟨hlo, hhi⟩ := of_decide_eq_true h
  rw [span_move]
  exact decide_eq_true ⟨Int.add_le_add_right hlo d, Int.add_le_add_right hhi d⟩

end Source

/-! ## Lexemes and tokens -/

theorem Lexeme.ofChars_move (pos : Int) (cs : List Char) : ofChars (pos + d) cs = (ofChars pos cs).map (move d) := by
  fun_induction ofChars pos cs with
  | case1 pos => rw [ofChars]; rfl
  | case2 pos c rest hs ih =>
    rw [ofChars, if_pos hs, ← ih]
    congr 1
    omega
  | case3 pos c rest hs shape n he ih =>
    have hnext : pos + d + 1 + (n : Int) = pos + 1 + n + d := by omega
    rw [ofChars, if_neg hs, he]
    simp only [hnext, ih]
    rfl

theorem Source.lexemes_move (src : Source) : (src.move d).lexemes = src.lexemes.map (Lexeme.move d) :=
  Lexeme.ofChars_move d src.start src.text

theorem Lexeme.wordToken_move (names : NameTable) (x : Lexeme) :
    (x.move d).wordToken names = (x.wordToken names).mapError (ReadFailure.move d) := by
  have htext : (x.move d).text = x.text := rfl
  unfold wordToken
  rw [span_move, htext]
  cases Token.reserved? (String.ofList x.text) with
  | some t => rfl
  | none =>
    simp only
    by_cases hnumber : isNumber x.text = true
    · rw [if_pos hnumber, if_pos hnumber]
      by_cases hlong : (unsigned x.text).length > maxDigits
      · rw [if_pos hlong, if_pos hlong]
        rfl
      · rw [if_neg hlong, if_neg hlong]
        by_cases hword : InWord (numberValue x.text)
        · rw [if_pos hword, if_pos hword]
          rfl
        · rw [if_neg hword, if_neg hword]
          rfl
    · rw [if_neg hnumber, if_neg hnumber]
      by_cases hstart : startsLikeNumber x.text = true
      · rw [if_pos hstart, if_pos hstart]
        rfl
      · rw [if_neg hstart, if_neg hstart]
        rfl

/-- A lexeme has the same token elsewhere, or the same failure at its place. -/
theorem Lexeme.token_move (names : NameTable) (x : Lexeme) :
    (x.move d).token names = (x.token names).mapError (ReadFailure.move d) := by
  have hshape : (x.move d).shape = x.shape := rfl
  have htext : (x.move d).text = x.text := rfl
  unfold token
  rw [hshape, htext, span_move, wordToken_move]
  cases x.shape with
  | opener b | closer b | string | openString | word => rfl
  | keyword =>
    simp only
    cases x.text.tail <;> rfl

theorem tokens_map_move (names : NameTable) (xs : List Lexeme) :
    tokens names (xs.map (Lexeme.move d)) =
      ((tokens names xs).1.map (PlacedToken.move d), (tokens names xs).2.1.map (ReadFailure.move d), (tokens names xs).2.2) := by
  induction xs generalizing names with
  | nil => rfl
  | cons x xs ih =>
    have hx := x.token_move d names
    cases h : x.token names with
    | error f =>
      rw [h] at hx
      rw [List.map_cons, tokens_cons_error hx, tokens_cons_error h]
      rfl
    | ok r =>
      rw [h] at hx
      rw [List.map_cons, tokens_cons_ok hx, tokens_cons_ok h, ih, Lexeme.span_move]
      rfl

end LineLisp
