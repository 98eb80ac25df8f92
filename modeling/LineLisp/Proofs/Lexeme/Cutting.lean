/-
  LineLisp.Proofs.Lexeme.Cutting — what the lexemes of a text look like, said without
  a scan.

  `Cut shape text rest` says that a text which begins with `text` and goes on with
  `rest` begins with that lexeme: a string up to the first quote that no backslash
  takes, a keyword or a word up to the first character that neither goes on over.
  Scanning finds exactly these (`cut_extent`, `extent_of_cut`). So a lexeme is found
  wherever it stands, whatever goes before it (`ofChars_append_of_cut`), every lexeme
  of a text is one (`exists_cut_of_mem_ofChars`), and what is in no lexeme separates
  (`separator_or_covered`).
-/

import Mathlib.Data.List.TakeWhile
import LineLisp.Proofs.Lexeme.Layout

namespace LineLisp

namespace Lexeme

/-! ## The look of a lexeme -/

/-- What stands between the quotes of a string. A backslash takes the next character
    with it, which is no line feed; without a backslash there is no quote. -/
inductive Contents : List Char → Prop
  | nil : Contents []
  | plain {c : Char} {cs : List Char} : c ≠ '\\' → c ≠ '"' → Contents cs → Contents (c :: cs)
  | escaped {c : Char} {cs : List Char} : c ≠ '\n' → Contents cs → Contents ('\\' :: c :: cs)

/-- No quote closes a string that was opened before these characters. -/
def NeverClosed (cs : List Char) : Prop := ∀ body rest, Contents body → cs ≠ body ++ '"' :: rest

/-- A keyword or a word does not go on over these characters. -/
def Ends (rest : List Char) : Prop := ∀ c, rest.head? = some c → isRunning c = false

inductive Cut : Shape → List Char → List Char → Prop
  | opener (b : Bracket) (rest : List Char) : Cut (.opener b) [b.opener] rest
  | closer (b : Bracket) (rest : List Char) : Cut (.closer b) [b.closer] rest
  | string {body : List Char} (rest : List Char) : Contents body → Cut .string ('"' :: (body ++ ['"'])) rest
  | openString {cs : List Char} : NeverClosed cs → Cut .openString ('"' :: cs) []
  | keyword {cs rest : List Char} : (∀ c ∈ cs, isRunning c = true) → Ends rest → Cut .keyword (':' :: cs) rest
  | word {c : Char} {cs rest : List Char} : c ≠ ':' → (∀ d ∈ c :: cs, isRunning d = true) → Ends rest →
      Cut .word (c :: cs) rest

theorem ends_nil : Ends [] := fun _ h => nomatch h

theorem ends_cons {c : Char} (h : isRunning c = false) (rest : List Char) : Ends (c :: rest) := by
  intro d hd
  cases hd
  exact h

/-! ## Strings -/

theorem closingQuote?_of_contents {body : List Char} (h : Contents body) (rest : List Char) :
    closingQuote? (body ++ '"' :: rest) = some (body.length + 1) := by
  induction h with
  | nil => rfl
  | @plain c cs hb hq _ ih =>
    rw [List.cons_append, closingQuote?, ih]
    · rfl
    · intro h _; exact hb h
    · intro _ _ h _; exact hb h
    · intro h; exact hq h
  | @escaped c cs hn _ ih =>
    rw [List.cons_append, List.cons_append, closingQuote?, if_neg hn, ih]
    rfl

theorem contents_of_closingQuote? {cs : List Char} {n : Nat} (h : closingQuote? cs = some n) :
    ∃ body rest, Contents body ∧ cs = body ++ '"' :: rest ∧ n = body.length + 1 := by
  fun_induction closingQuote? cs generalizing n with
  | case1 => cases h
  | case2 => cases h
  | case3 => cases h
  | case4 c rest hn ih =>
    obtain ⟨m, hm, rfl⟩ := Option.map_eq_some_iff.mp h
    obtain ⟨body, rest', hb, rfl, rfl⟩ := ih hm
    exact ⟨'\\' :: c :: body, rest', .escaped hn hb, rfl, rfl⟩
  | case5 rest => cases h; exact ⟨[], rest, .nil, rfl, rfl⟩
  | case6 c rest hlone hpair hquote ih =>
    obtain ⟨m, hm, rfl⟩ := Option.map_eq_some_iff.mp h
    obtain ⟨body, rest', hb, rfl, rfl⟩ := ih hm
    refine ⟨c :: body, rest', .plain (fun hc => ?_) (fun hc => hquote hc) hb, rfl, rfl⟩
    cases body with
    | nil => exact hpair '"' rest' hc rfl
    | cons d body => exact hpair d (body ++ '"' :: rest') hc rfl

theorem closingQuote?_eq_none_iff {cs : List Char} : closingQuote? cs = none ↔ NeverClosed cs := by
  constructor
  · intro h body rest hb hcs
    rw [hcs, closingQuote?_of_contents hb] at h
    cases h
  · intro h
    cases hq : closingQuote? cs with
    | none => rfl
    | some n =>
      obtain ⟨body, rest, hb, hcs, -⟩ := contents_of_closingQuote? hq
      exact absurd hcs (h body rest hb)

/-! ## Runs -/

theorem takeWhile_append_of_ends {cs rest : List Char} (h : ∀ c ∈ cs, isRunning c = true) (hr : Ends rest) :
    (cs ++ rest).takeWhile isRunning = cs := by
  rw [List.takeWhile_append_of_pos h]
  cases rest with
  | nil => exact List.append_nil cs
  | cons c rest => rw [List.takeWhile_cons, hr c rfl]; exact List.append_nil cs

theorem take_takeWhile (cs : List Char) :
    cs.take (cs.takeWhile isRunning).length = cs.takeWhile isRunning :=
  (List.prefix_iff_eq_take.mp (List.takeWhile_prefix isRunning)).symm

theorem ends_drop_takeWhile (cs : List Char) : Ends (cs.drop (cs.takeWhile isRunning).length) := by
  have h : cs = cs.takeWhile isRunning ++ cs.dropWhile isRunning := List.takeWhile_append_dropWhile.symm
  rw [congrArg (List.drop _) h, List.drop_left]
  intro c hc
  have hn := List.head?_dropWhile_not isRunning cs
  rw [hc] at hn
  exact hn

/-! ## Scanning finds them -/

theorem isRunning_of_extent_word {c : Char} (hs : isSeparator c = false) (hp : c ≠ '(') (hp' : c ≠ ')')
    (hb : c ≠ '[') (hb' : c ≠ ']') (hq : c ≠ '"') : isRunning c = true := by
  simp [isRunning, isBracketOrQuote, hs, hp, hp', hb, hb', hq]

/-- What the scan takes is cut as it must be. -/
theorem cut_extent {c : Char} (hs : isSeparator c = false) (rest : List Char) :
    Cut (extent c rest).1 (c :: rest.take (extent c rest).2) (rest.drop (extent c rest).2) := by
  unfold extent
  split
  · exact .opener .round rest
  · exact .closer .round rest
  · exact .opener .square rest
  · exact .closer .square rest
  · split
    · rename_i n hn
      obtain ⟨body, after, hb, rfl, rfl⟩ := contents_of_closingQuote? hn
      have hsplit : body ++ '"' :: after = (body ++ ['"']) ++ after := by simp
      have hlen : body.length + 1 = (body ++ ['"']).length := by simp
      rw [hsplit, hlen, List.take_left, List.drop_left]
      exact .string after hb
    · rename_i hn
      rw [List.take_length, List.drop_length]
      exact .openString (closingQuote?_eq_none_iff.mp hn)
  · rw [take_takeWhile]
    exact .keyword (fun d hd => List.mem_takeWhile_imp hd) (ends_drop_takeWhile rest)
  · rename_i hp hp' hb hb' hq hk
    rw [take_takeWhile]
    refine .word hk (fun d hd => ?_) (ends_drop_takeWhile rest)
    rcases List.mem_cons.mp hd with rfl | hd
    · exact isRunning_of_extent_word hs hp hp' hb hb' hq
    · exact List.mem_takeWhile_imp hd

theorem ne_nil_of_cut {shape : Shape} {text rest : List Char} (h : Cut shape text rest) : text ≠ [] := by
  cases h <;> exact List.cons_ne_nil _ _

/-- A string has both its quotes. -/
theorem two_le_length_of_cut {text rest : List Char} (h : Cut .string text rest) : 2 ≤ text.length := by
  cases h
  simp

/-- What runs on neither separates nor stands for itself. -/
theorem not_special_of_isRunning {c : Char} (h : isRunning c = true) :
    isSeparator c = false ∧ c ≠ '(' ∧ c ≠ ')' ∧ c ≠ '[' ∧ c ≠ ']' ∧ c ≠ '"' := by
  simpa [isRunning, isBracketOrQuote, and_assoc] using h

/-- What is cut as it must be is what the scan takes. -/
theorem extent_of_cut {shape : Shape} {c : Char} {cs rest : List Char} (h : Cut shape (c :: cs) rest) :
    isSeparator c = false ∧ extent c (cs ++ rest) = (shape, cs.length) := by
  generalize htext : c :: cs = text at h
  cases h with
  | opener b =>
    obtain ⟨rfl, rfl⟩ := List.cons.inj htext
    cases b <;> exact ⟨by decide, rfl⟩
  | closer b =>
    obtain ⟨rfl, rfl⟩ := List.cons.inj htext
    cases b <;> exact ⟨by decide, rfl⟩
  | @string body rest hb =>
    obtain ⟨rfl, rfl⟩ := List.cons.inj htext
    refine ⟨by decide, ?_⟩
    have hq : closingQuote? ((body ++ ['"']) ++ rest) = some (body.length + 1) := by
      rw [List.append_assoc]
      exact closingQuote?_of_contents hb rest
    simp only [extent, hq, List.length_append, List.length_singleton]
  | openString hn =>
    obtain ⟨rfl, rfl⟩ := List.cons.inj htext
    refine ⟨by decide, ?_⟩
    rw [List.append_nil]
    simp only [extent, closingQuote?_eq_none_iff.mpr hn]
  | keyword hr he =>
    obtain ⟨rfl, rfl⟩ := List.cons.inj htext
    refine ⟨by decide, ?_⟩
    simp only [extent, takeWhile_append_of_ends hr he]
  | word hk hr he =>
    obtain ⟨rfl, rfl⟩ := List.cons.inj htext
    obtain ⟨hs, hp, hp', hb, hb', hq⟩ := not_special_of_isRunning (hr c (by simp))
    refine ⟨hs, ?_⟩
    have hrun := takeWhile_append_of_ends (fun d hd => hr d (List.mem_cons_of_mem c hd)) he
    unfold extent
    split
    · exact absurd rfl hp
    · exact absurd rfl hp'
    · exact absurd rfl hb
    · exact absurd rfl hb'
    · exact absurd rfl hq
    · exact absurd rfl hk
    · rw [hrun]

/-! ## The lexemes of a text -/

theorem ofChars_append_of_cut {shape : Shape} {text rest : List Char} (h : Cut shape text rest) (pos : Int) :
    ofChars pos (text ++ rest) = ⟨shape, text, pos⟩ :: ofChars (pos + text.length) rest := by
  cases text with
  | nil => exact absurd rfl (ne_nil_of_cut h)
  | cons c cs =>
    obtain ⟨hs, he⟩ := extent_of_cut h
    rw [List.cons_append, ofChars, if_neg (by simp [hs]), he]
    simp only [List.take_left, List.drop_left, List.length_cons]
    congr 2
    omega

theorem ofChars_separator {c : Char} (h : isSeparator c = true) (pos : Int) (rest : List Char) :
    ofChars pos (c :: rest) = ofChars (pos + 1) rest := by
  rw [ofChars, if_pos h]

/-- Every lexeme of a text stands somewhere in it, cut as it must be. -/
theorem exists_cut_of_mem_ofChars {pos : Int} {cs : List Char} {x : Lexeme} (h : x ∈ ofChars pos cs) :
    ∃ before after, cs = before ++ x.text ++ after ∧ x.pos = pos + before.length ∧ Cut x.shape x.text after := by
  fun_induction ofChars pos cs with
  | case1 => cases h
  | case2 pos c rest _ ih =>
    obtain ⟨before, after, rfl, hp, hc⟩ := ih h
    refine ⟨c :: before, after, rfl, ?_, hc⟩
    rw [hp, List.length_cons]
    omega
  | case3 pos c rest hs shape n he ih =>
    have hcut : Cut (extent c rest).1 (c :: rest.take (extent c rest).2) (rest.drop (extent c rest).2) :=
      cut_extent (Bool.eq_false_iff.mpr hs) rest
    have hn := extent_le c rest
    rw [he] at hcut hn
    rcases List.mem_cons.mp h with rfl | h
    · exact ⟨[], rest.drop n, by simp, by simp, hcut⟩
    · obtain ⟨before, after, hrest, hp, hc⟩ := ih h
      refine ⟨c :: (rest.take n ++ before), after, ?_, ?_, hc⟩
      · have hsplit : rest = rest.take n ++ rest.drop n := (List.take_append_drop n rest).symm
        rw [hrest] at hsplit
        rw [congrArg (List.cons c) hsplit]
        simp
      · rw [hp, List.length_cons, List.length_append, List.length_take_of_le hn]
        omega

/-- What is in no lexeme separates. -/
theorem separator_or_covered {pos : Int} {cs : List Char} {i : Nat} {d : Char} (h : cs[i]? = some d) :
    isSeparator d = true ∨ ∃ x ∈ ofChars pos cs, x.span.lo ≤ pos + i ∧ pos + i < x.span.hi := by
  fun_induction ofChars pos cs generalizing i with
  | case1 => cases h
  | case2 pos c rest hs ih =>
    cases i with
    | zero => cases h; exact Or.inl hs
    | succ i =>
      rcases ih h with hd | ⟨x, hx, hlo, hhi⟩
      · exact Or.inl hd
      · exact Or.inr ⟨x, hx, by omega, by omega⟩
  | case3 pos c rest _ shape n he ih =>
    have hn := extent_le c rest
    rw [he] at hn
    by_cases hi : i ≤ n
    · refine Or.inr ⟨_, List.mem_cons_self, ?_, ?_⟩
      · simp only [span, Span.ofLength]; omega
      · simp only [span, Span.ofLength, List.length_cons, List.length_take_of_le hn]; omega
    · obtain ⟨j, rfl⟩ : ∃ j, i = n + 1 + j := ⟨i - (n + 1), by omega⟩
      have hj : (rest.drop n)[j]? = some d := by
        rw [List.getElem?_drop, ← h]
        rw [show n + 1 + j = n + j + 1 by omega, List.getElem?_cons_succ]
      rcases ih hj with hd | ⟨x, hx, hlo, hhi⟩
      · exact Or.inl hd
      · exact Or.inr ⟨x, List.mem_cons_of_mem _ hx, by omega, by omega⟩

/-- A lexeme that is no open string may be followed by whatever ends a run. -/
theorem Cut.of_ends {shape : Shape} {text rest rest' : List Char} (h : Cut shape text rest)
    (hs : shape ≠ .openString) (he : Ends rest') : Cut shape text rest' := by
  cases h with
  | opener b => exact .opener b rest'
  | closer b => exact .closer b rest'
  | string _ hb => exact .string rest' hb
  | openString _ => exact absurd rfl hs
  | keyword hr _ => exact .keyword hr he
  | word hk hr _ => exact .word hk hr he

end Lexeme

/-! ## The lexemes of a line -/

namespace Source

/-- The characters of a line from a position on. -/
def after (src : Source) (p : Int) : List Char := src.text.drop (p - src.start).toNat

theorem lo_lt_hi_of_mem_lexemes {src : Source} {x : Lexeme} (h : x ∈ src.lexemes) : x.span.lo < x.span.hi := by
  obtain ⟨before, rest, -, -, hc⟩ := Lexeme.exists_cut_of_mem_ofChars h
  have hlen : 0 < x.text.length := List.length_pos_iff.mpr (Lexeme.ne_nil_of_cut hc)
  simp only [Lexeme.span, Span.ofLength]
  omega

theorem cut_of_mem_lexemes {src : Source} {x : Lexeme} (h : x ∈ src.lexemes) :
    Lexeme.Cut x.shape x.text (src.after x.span.hi) ∧ src.slice x.span = x.text ∧ src.span.contains x.span = true := by
  obtain ⟨before, rest, htext, hp, hc⟩ := Lexeme.exists_cut_of_mem_ofChars h
  rcases src with ⟨text, start⟩
  subst htext
  have hspan : x.span = Span.ofLength (start + before.length) x.text.length := by rw [Lexeme.span, hp]
  refine ⟨?_, ?_, ?_⟩
  · have hdrop : (x.span.hi - start).toNat = (before ++ x.text).length := by
      rw [hspan, List.length_append]
      simp only [Span.ofLength]
      omega
    rw [after, hdrop, List.drop_left]
    exact hc
  · rw [hspan]
    exact slice_ofLength before x.text rest start
  · rw [hspan]
    simp only [Span.contains, span, Span.ofLength, List.length_append, decide_eq_true_eq]
    omega

end Source

end LineLisp
