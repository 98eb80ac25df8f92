/-
  LineLisp.Proofs.Lexeme.Quotes — which quote closes a string, by counting backslashes.

  The scan goes from left to right and steps over a backslash together with the character
  that it takes. Looked at from a place instead, the backslashes that stand right before it
  decide: of an even number each second one is taken and the place is free, of an odd number
  the last one takes the place (`free_succ`, `free_pair`). So the scan stops at the first
  quote that is free, unless an earlier line feed is not (`closingQuote?_eq_some_iff`).
  `Source.string_of_backslashes` says it of a quote at which the lexer starts a token: what
  the token is, where lexing goes on, and the value of the literal.
-/

import Mathlib.Algebra.Group.Nat.Even
import LineLisp.Proofs.Eval.Positions
import LineLisp.Proofs.Lexeme.Joining
import LineLisp.Proofs.Lexeme.Tokens

namespace LineLisp

namespace Lexeme

/-! ## Backslashes before a place -/

/-- How many backslashes, one after another, stand right before a place of a text. -/
def backslashesBefore (cs : List Char) (i : Nat) : Nat := ((cs.take i).reverse.takeWhile (· == '\\')).length

/-- No backslash takes what stands at the place. -/
def Free (cs : List Char) (i : Nat) : Prop := Even (backslashesBefore cs i)

instance (cs : List Char) (i : Nat) : Decidable (Free cs i) := inferInstanceAs (Decidable (Even _))

theorem free_zero (cs : List Char) : Free cs 0 := ⟨0, rfl⟩

theorem not_free_after_backslash (cs : List Char) : ¬ Free ('\\' :: cs) 1 := by
  show ¬ Even 1
  decide

/-- No run of backslashes goes over another character. -/
theorem takeWhile_backslashes {c : Char} (h : c ≠ '\\') (cs ds : List Char) :
    (cs ++ c :: ds).takeWhile (· == '\\') = cs.takeWhile (· == '\\') := by
  rw [List.takeWhile_append, List.takeWhile_cons_of_neg (by simpa using h), List.append_nil]
  split
  · rename_i hall
    exact ((List.takeWhile_prefix _).eq_of_length hall).symm
  · rfl

theorem free_succ {c : Char} (h : c ≠ '\\') (cs : List Char) (i : Nat) : Free (c :: cs) (i + 1) ↔ Free cs i := by
  rw [Free, Free, backslashesBefore, backslashesBefore, List.take_succ_cons, List.reverse_cons,
    takeWhile_backslashes h]

/-- A backslash at the start and what it takes are in no run, or they are two of it. -/
theorem free_pair (c : Char) (cs : List Char) (i : Nat) : Free ('\\' :: c :: cs) (i + 2) ↔ Free cs i := by
  have hsplit : (('\\' :: c :: cs).take (i + 2)).reverse = (cs.take i).reverse ++ c :: ['\\'] := by simp
  rw [Free, Free, backslashesBefore, backslashesBefore, hsplit]
  by_cases hc : c = '\\'
  · subst hc
    rw [List.takeWhile_append]
    split
    · rename_i hall
      -- the run goes back to the start: the two backslashes are two more of it
      show Even ((cs.take i).reverse ++ ['\\', '\\']).length ↔ _
      rw [hall, List.length_append, Nat.even_add]
      exact iff_true_right (by decide)
    · rfl
  · rw [takeWhile_backslashes hc]

/-! ## The quote that closes a string -/

/-- The first quote that no backslash takes. -/
structure FirstFreeQuote (cs : List Char) (q : Nat) : Prop where
  quote : cs[q]? = some '"'
  free : Free cs q
  first : ∀ i < q, cs[i]? = some '"' → ¬ Free cs i

/-- No line feed before the place is taken by a backslash. -/
def Unbroken (cs : List Char) (q : Nat) : Prop := ∀ i < q, cs[i]? = some '\n' → Free cs i

instance (cs : List Char) (q : Nat) : Decidable (FirstFreeQuote cs q) :=
  decidable_of_iff (cs[q]? = some '"' ∧ Free cs q ∧ ∀ i < q, cs[i]? = some '"' → ¬ Free cs i)
    ⟨fun ⟨hq, hf, h⟩ => ⟨hq, hf, h⟩, fun h => ⟨h.quote, h.free, h.first⟩⟩

instance (cs : List Char) (q : Nat) : Decidable (Unbroken cs q) :=
  inferInstanceAs (Decidable (∀ i < q, cs[i]? = some '\n' → Free cs i))

/-- A line feed after one backslash is taken, after two it is not. -/
example : ¬ Unbroken "a\\\nb\"".toList 4 ∧ Unbroken "a\\\\\nb\"".toList 5 := by decide

/-- What the scan goes over: no quote that is free, and no line feed that is not. -/
def Passed (cs : List Char) (i : Nat) : Prop :=
  (cs[i]? = some '"' → ¬ Free cs i) ∧ (cs[i]? = some '\n' → Free cs i)

/-- The scan stops at the place and closes the string there. -/
def ClosedAt (cs : List Char) (q : Nat) : Prop := cs[q]? = some '"' ∧ Free cs q ∧ ∀ i < q, Passed cs i

theorem closedAt_iff {cs : List Char} {q : Nat} : ClosedAt cs q ↔ FirstFreeQuote cs q ∧ Unbroken cs q := by
  constructor
  · rintro ⟨hquote, hfree, hpassed⟩
    exact ⟨⟨hquote, hfree, fun i hi => (hpassed i hi).1⟩, fun i hi => (hpassed i hi).2⟩
  · rintro ⟨⟨hquote, hfree, hfirst⟩, hunbroken⟩
    exact ⟨hquote, hfree, fun i hi => ⟨hfirst i hi, hunbroken i hi⟩⟩

theorem not_closedAt_nil (q : Nat) : ¬ ClosedAt [] q := fun h => nomatch h.1

theorem not_closedAt_backslash (q : Nat) : ¬ ClosedAt ['\\'] q := by
  rintro ⟨hquote, -, -⟩
  cases q with
  | zero => cases hquote
  | succ q => exact nomatch (List.getElem?_cons_succ ▸ hquote : ([] : List Char)[q]? = some '"')

theorem closedAt_quote {cs : List Char} {q : Nat} : ClosedAt ('"' :: cs) q ↔ q = 0 := by
  constructor
  · rintro ⟨-, -, hpassed⟩
    by_contra hq
    exact (hpassed 0 (Nat.pos_of_ne_zero hq)).1 rfl (free_zero _)
  · rintro rfl
    exact ⟨rfl, free_zero _, fun i hi => absurd hi (Nat.not_lt_zero i)⟩

theorem closedAt_plain {c : Char} (hb : c ≠ '\\') (hq : c ≠ '"') {cs : List Char} {q : Nat} :
    ClosedAt (c :: cs) q ↔ ∃ p, q = p + 1 ∧ ClosedAt cs p := by
  have hpassed : ∀ i, Passed (c :: cs) (i + 1) ↔ Passed cs i := fun i => by
    rw [Passed, Passed, List.getElem?_cons_succ, free_succ hb]
  constructor
  · rintro ⟨hquote, hfree, hall⟩
    cases q with
    | zero => exact absurd (Option.some.inj hquote) hq
    | succ p =>
      exact ⟨p, rfl, hquote, (free_succ hb cs p).mp hfree, fun i hi => (hpassed i).mp (hall (i + 1) (by omega))⟩
  · rintro ⟨p, rfl, hquote, hfree, hall⟩
    refine ⟨hquote, (free_succ hb cs p).mpr hfree, Nat.forall_lt_succ_left.mpr ⟨?_, ?_⟩⟩
    · exact ⟨fun hc => absurd (Option.some.inj hc) hq, fun _ => free_zero _⟩
    · exact fun i hi => (hpassed i).mpr (hall i hi)

theorem closedAt_pair {c : Char} {cs : List Char} {q : Nat} :
    ClosedAt ('\\' :: c :: cs) q ↔ c ≠ '\n' ∧ ∃ p, q = p + 2 ∧ ClosedAt cs p := by
  have hpassed : ∀ i, Passed ('\\' :: c :: cs) (i + 2) ↔ Passed cs i := fun i => by
    rw [Passed, Passed, List.getElem?_cons_succ, List.getElem?_cons_succ, free_pair]
  have htaken : ¬ Free ('\\' :: c :: cs) 1 := not_free_after_backslash _
  constructor
  · rintro ⟨hquote, hfree, hall⟩
    match q with
    | 0 => cases hquote
    | 1 => exact absurd hfree htaken
    | p + 2 =>
      refine ⟨?_, p, rfl, hquote, (free_pair c cs p).mp hfree, fun i hi => (hpassed i).mp (hall (i + 2) (by omega))⟩
      intro hc
      exact htaken ((hall 1 (by omega)).2 (congrArg some hc))
  · rintro ⟨hc, p, rfl, hquote, hfree, hall⟩
    refine ⟨hquote, (free_pair c cs p).mpr hfree, ?_⟩
    refine Nat.forall_lt_succ_left.mpr ⟨?_, Nat.forall_lt_succ_left.mpr ⟨?_, ?_⟩⟩
    · exact ⟨nofun, fun hn => nomatch (Option.some.inj hn)⟩
    · exact ⟨fun _ => htaken, fun hn => absurd (Option.some.inj hn) hc⟩
    · exact fun i hi => (hpassed i).mpr (hall i hi)

/-- The scan and the count of backslashes find the same quote. -/
theorem closingQuote?_eq_some_iff {cs : List Char} {n : Nat} :
    closingQuote? cs = some n ↔ ∃ q, n = q + 1 ∧ ClosedAt cs q := by
  fun_induction closingQuote? cs generalizing n with
  | case1 =>
    constructor
    · intro h
      cases h
    · rintro ⟨q, -, h⟩
      exact absurd h (not_closedAt_nil q)
  | case2 =>
    constructor
    · intro h
      cases h
    · rintro ⟨q, -, h⟩
      exact absurd h (not_closedAt_backslash q)
  | case3 rest =>
    constructor
    · intro h
      cases h
    · rintro ⟨q, -, h⟩
      exact absurd rfl (closedAt_pair.mp h).1
  | case4 c rest hc ih =>
    rw [Option.map_eq_some_iff]
    constructor
    · rintro ⟨m, hm, rfl⟩
      obtain ⟨p, rfl, hp⟩ := ih.mp hm
      exact ⟨p + 2, rfl, closedAt_pair.mpr ⟨hc, p, rfl, hp⟩⟩
    · rintro ⟨q, rfl, hq⟩
      obtain ⟨-, p, rfl, hp⟩ := closedAt_pair.mp hq
      exact ⟨p + 1, ih.mpr ⟨p, rfl, hp⟩, rfl⟩
  | case5 rest =>
    constructor
    · intro h
      exact ⟨0, (Option.some.inj h).symm, closedAt_quote.mpr rfl⟩
    · rintro ⟨q, rfl, hq⟩
      rw [closedAt_quote.mp hq]
  | case6 c rest hlone hpair hquote ih =>
    have hb : c ≠ '\\' := fun hc => by
      cases rest with
      | nil => exact hlone hc rfl
      | cons d rest => exact hpair d rest hc rfl
    rw [Option.map_eq_some_iff]
    constructor
    · rintro ⟨m, hm, rfl⟩
      obtain ⟨p, rfl, hp⟩ := ih.mp hm
      exact ⟨p + 1, rfl, (closedAt_plain hb hquote).mpr ⟨p, rfl, hp⟩⟩
    · rintro ⟨q, rfl, hq⟩
      obtain ⟨p, rfl, hp⟩ := (closedAt_plain hb hquote).mp hq
      exact ⟨p + 1, ih.mpr ⟨p, rfl, hp⟩, rfl⟩

theorem exists_contents_of_closedAt {cs : List Char} {q : Nat} (h : ClosedAt cs q) :
    ∃ body rest, Contents body ∧ cs = body ++ '"' :: rest ∧ q = body.length := by
  obtain ⟨body, rest, hb, hcs, hq⟩ := contents_of_closingQuote? (closingQuote?_eq_some_iff.mpr ⟨q, rfl, h⟩)
  exact ⟨body, rest, hb, hcs, Nat.succ.inj hq⟩

theorem neverClosed_of_not_closedAt {cs : List Char} (h : ∀ q, ¬ ClosedAt cs q) : NeverClosed cs := by
  refine closingQuote?_eq_none_iff.mp (Option.eq_none_iff_forall_ne_some.mpr fun n hn => ?_)
  obtain ⟨q, -, hq⟩ := closingQuote?_eq_some_iff.mp hn
  exact h q hq

theorem tokens_string {body : List Char} (h : Contents body) (rest : List Char) (names : NameTable) (pos : Int) :
    let span := Span.ofLength pos (body.length + 2)
    tokens names (ofChars pos ('"' :: (body ++ '"' :: rest)))
      = (⟨.string, span⟩ :: (tokens names (ofChars span.hi rest)).1, (tokens names (ofChars span.hi rest)).2) := by
  have hsplit : '"' :: (body ++ '"' :: rest) = '"' :: (body ++ ['"']) ++ rest := by simp
  have hlength : ('"' :: (body ++ ['"'])).length = body.length + 2 := by simp
  rw [hsplit, ofChars_append_of_cut (.string rest h), tokens_cons_ok rfl, Lexeme.span, hlength]
  rfl

theorem tokens_openString {cs : List Char} (h : NeverClosed cs) (names : NameTable) (pos : Int) :
    tokens names (ofChars pos ('"' :: cs))
      = ([], some (.error ⟨Span.ofLength pos (cs.length + 1), .openString⟩), names) := by
  have hcut := ofChars_append_of_cut (.openString h) pos
  rw [List.append_nil] at hcut
  rw [hcut, tokens_cons_error rfl]
  rfl

end Lexeme

/-! ## A string of a line -/

namespace Source

/-- Having these tokens and left these names, the lexer starts its next token at this place. -/
def StartsToken (src : Source) (names : NameTable) (ts : List PlacedToken) (names' : NameTable) (i : Nat) : Prop :=
  ∃ xs x ys, src.lexemes = xs ++ x :: ys ∧ LineLisp.tokens names xs = (ts, none, names') ∧ x.pos = src.start + i

/-- Where the lexer starts a token, the other tokens are those of the text from there on. -/
theorem tokens_of_startsToken {src : Source} {names names' : NameTable} {ts : List PlacedToken}
    {before after : List Char} {more : List PlacedToken × Option ReadFailure × NameTable}
    (htext : src.text = before ++ after) (h : src.StartsToken names ts names' before.length)
    (hmore : LineLisp.tokens names' (Lexeme.ofChars (src.start + before.length) after) = more) :
    src.tokens names = (ts ++ more.1, more.2) := by
  obtain ⟨xs, x, ys, hlexemes, hts, hpos⟩ := h
  obtain ⟨before', after', htext', hpos', hscan⟩ := (Lexeme.scan_iff.mpr hlexemes).exists_after
  obtain ⟨-, rfl⟩ : before = before' ∧ after = after' :=
    List.append_inj (htext.symm.trans htext') (by omega)
  have hrest : Lexeme.ofChars (src.start + before.length) after = x :: ys := hpos ▸ Lexeme.scan_iff.mp hscan
  have hnone : (LineLisp.tokens names xs).2.1 = none := by rw [hts]
  rw [tokens, hlexemes, tokens_append hnone, hts, ← hrest, hmore]

/-- A string has the characters between its quotes for its value. -/
theorem eval_string (host : Host) (budget : Nat) (before body rest : List Char) (start : Int) :
    Eval.eval host ⟨before ++ '"' :: (body ++ '"' :: rest), start⟩ budget
      (.atom (Span.ofLength (start + before.length) (body.length + 2)) .string) = pure (.str (.ofChars body)) := by
  have hinner : Span.of? (start + before.length + 1) (start + before.length + (body.length + 2 : Nat) - 1)
      = some (Span.ofLength (start + (before ++ ['"']).length) body.length) := by
    rw [Span.of?, dif_pos (by omega)]
    simp only [Span.ofLength, List.length_append, List.length_singleton, Option.some.injEq, Span.mk.injEq]
    omega
  have hslice : slice ⟨before ++ '"' :: (body ++ '"' :: rest), start⟩
      (Span.ofLength (start + (before ++ ['"']).length) body.length) = body := by
    have h := slice_ofLength (before ++ ['"']) body ('"' :: rest) start
    simpa using h
  rw [Eval.eval, Eval.evalAtom]
  simp only [Span.ofLength] at hinner ⊢
  rw [hinner]
  exact congrArg (fun cs => pure (Value.str (.ofChars cs))) hslice

/-- A string ends with the first quote that an even number of backslashes stand before, if no
    line feed before it has an odd number; else it does not end before the line does. -/
theorem string_of_backslashes {src : Source} {names names' : NameTable} {ts : List PlacedToken}
    {before cs : List Char} (htext : src.text = before ++ '"' :: cs)
    (hstarts : src.StartsToken names ts names' before.length) :
    (∀ q, Lexeme.FirstFreeQuote cs q → Lexeme.Unbroken cs q →
      let span := Span.ofLength (src.start + before.length) (q + 2)
      let more := LineLisp.tokens names' (Lexeme.ofChars span.hi (cs.drop (q + 1)))
      let literal := Expr.atom span .string
      src.tokens names = (ts ++ ⟨.string, span⟩ :: more.1, more.2) ∧
        (∀ line groups, Reader.step line groups ⟨.string, span⟩ = .ok (Reader.place literal groups)) ∧
        ∀ host budget s, Eval.eval host src budget literal s = (.ok (.str (.ofChars (cs.take q))), s)) ∧
    ((∀ q, Lexeme.FirstFreeQuote cs q → ¬ Lexeme.Unbroken cs q) →
      ∃ e : ReadError, src.tokens names = (ts, some (.error e), names') ∧ e.kind = .unterminatedString ∧
        e.span.lo = src.start + before.length ∧ e.span.hi = src.start + src.text.length) := by
  constructor
  · intro q hfirst hunbroken
    obtain ⟨body, rest, hbody, rfl, rfl⟩ :=
      Lexeme.exists_contents_of_closedAt (Lexeme.closedAt_iff.mpr ⟨hfirst, hunbroken⟩)
    refine ⟨?_, fun _ _ => rfl, fun host budget s => ?_⟩
    · have hdrop : (body ++ '"' :: rest).drop (body.length + 1) = rest := by simp
      rw [hdrop]
      exact tokens_of_startsToken htext hstarts (Lexeme.tokens_string hbody rest names' _)
    · obtain ⟨text, start⟩ := src
      obtain rfl : text = before ++ '"' :: (body ++ '"' :: rest) := htext
      rw [eval_string, List.take_left]
      rfl
  · intro hnone
    have hnever : Lexeme.NeverClosed cs := Lexeme.neverClosed_of_not_closedAt fun q hq =>
      hnone q (Lexeme.closedAt_iff.mp hq).1 (Lexeme.closedAt_iff.mp hq).2
    have htokens := tokens_of_startsToken htext hstarts (Lexeme.tokens_openString hnever names' _)
    rw [List.append_nil] at htokens
    refine ⟨_, htokens, rfl, rfl, ?_⟩
    rw [htext, List.length_append, List.length_cons]
    simp only [Span.ofLength]
    omega

/-- The quote after one backslash stays in the string, and the one after two closes it. -/
theorem string_of_backslashes_in_vector :
    let src : Source := ⟨"[1 \"a\\\"b\\\\\" \"c".toList, 5⟩
    (src.tokens NameTable.empty).1 = [⟨.opener .square, Span.ofLength 5 1⟩, ⟨.integer 1, Span.ofLength 6 1⟩] ++
        ⟨.string, Span.ofLength 8 8⟩ :: (LineLisp.tokens .empty (Lexeme.ofChars 16 " \"c".toList)).1 ∧
      ∀ host budget s, Eval.eval host src budget (.atom (Span.ofLength 8 8) .string) s
        = (.ok (.str (.ofString "a\\\"b\\\\")), s) := by
  intro src
  have hstarts : src.StartsToken .empty [⟨.opener .square, Span.ofLength 5 1⟩, ⟨.integer 1, Span.ofLength 6 1⟩]
      .empty 3 :=
    ⟨src.lexemes.take 2, ⟨.string, "\"a\\\"b\\\\\"".toList, 8⟩, src.lexemes.drop 3, by decide +kernel,
      by decide +kernel, by decide +kernel⟩
  have htext : src.text = "[1 ".toList ++ '"' :: "a\\\"b\\\\\" \"c".toList := by decide
  obtain ⟨hclosed, -⟩ := string_of_backslashes htext hstarts
  obtain ⟨htokens, -, heval⟩ := hclosed 6 (by decide) (by decide)
  exact ⟨congrArg Prod.fst htokens, heval⟩

end Source

end LineLisp
