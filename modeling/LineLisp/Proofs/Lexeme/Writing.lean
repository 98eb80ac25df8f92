/-
  LineLisp.Proofs.Lexeme.Writing — which texts are written for which tokens.

  `Written names text t` says of a text alone which token it is written for, and
  `Flawed span text f` which texts are written for none, and why; both without a word
  about scanning or about the order in which kinds are tried. A lexeme has the token
  that its text is written for (`written_of_token`) or the failure that its text has
  (`flawed_of_token`). A text is written for one token at most, and is not flawed then
  (`Written.unique`, `Written.not_flawed`).
-/

import Mathlib.Data.Nat.Digits.Defs
import LineLisp.Proofs.Lexeme.Cutting
import LineLisp.Proofs.Lexeme.Tokens

namespace LineLisp

/-! ## Numerals -/

/-- The number that digits stand for in the decimal system. -/
def decimal (digits : List Char) : Nat := Nat.ofDigits 10 (digits.reverse.map fun d => d.toNat - '0'.toNat)

/-- A word of digits, with or without a minus sign before them, and its number. -/
inductive Numeral : List Char → List Char → Int → Prop
  | plain {digits : List Char} : digits ≠ [] → (∀ d ∈ digits, d.isDigit = true) →
      Numeral digits digits (decimal digits)
  | minus {digits : List Char} : digits ≠ [] → (∀ d ∈ digits, d.isDigit = true) →
      Numeral ('-' :: digits) digits (-(decimal digits : Int))

/-- A word that begins as a numeral does. -/
def BeginsNumeral (word : List Char) : Prop :=
  ∃ d rest, d.isDigit = true ∧ (word = d :: rest ∨ word = '-' :: d :: rest)

theorem ofDigitChars_eq_decimal (digits : List Char) : Nat.ofDigitChars 10 digits 0 = decimal digits := by
  have h : ∀ ds : List Char, ds.foldr (fun d n => 10 * n + (d.toNat - '0'.toNat)) 0
      = Nat.ofDigits 10 (ds.map fun d => d.toNat - '0'.toNat) := by
    intro ds
    induction ds with
    | nil => rfl
    | cons d ds ih => rw [List.foldr_cons, ih, List.map_cons, Nat.ofDigits_cons, Nat.add_comm]
  rw [decimal, ← h, List.foldr_reverse]
  rfl

theorem unsigned_of_isDigit {d : Char} (h : d.isDigit = true) (rest : List Char) :
    unsigned (d :: rest) = d :: rest := by
  unfold unsigned
  split
  · rename_i heq
    cases heq
    exact absurd h (by decide)
  · rfl

theorem head?_ne_minus {d : Char} (h : d.isDigit = true) (rest : List Char) :
    (d :: rest).head? ≠ some '-' := by
  intro he
  cases he
  exact absurd h (by decide)

theorem numeral_iff {word digits : List Char} {n : Int} :
    Numeral word digits n ↔ isNumber word = true ∧ digits = unsigned word ∧ n = numberValue word := by
  constructor
  · intro h
    cases h with
    | plain hne hd =>
      obtain ⟨d, ds, rfl⟩ := List.exists_cons_of_ne_nil hne
      have hd0 : d.isDigit = true := hd d (by simp)
      have hu := unsigned_of_isDigit hd0 ds
      refine ⟨?_, hu.symm, ?_⟩
      · rw [isNumber, hu]
        simpa using hd
      · rw [numberValue, hu, if_neg (head?_ne_minus hd0 ds), ofDigitChars_eq_decimal]
    | minus hne hd =>
      refine ⟨?_, rfl, ?_⟩
      · simpa [isNumber, unsigned, hne] using hd
      · rw [numberValue, ← ofDigitChars_eq_decimal]
        rfl
  · intro h
    obtain ⟨hnum, rfl, rfl⟩ := h
    simp only [isNumber, Bool.and_eq_true, Bool.not_eq_true', List.isEmpty_eq_false_iff, List.all_eq_true] at hnum
    obtain ⟨hne, hd⟩ := hnum
    rw [numberValue, ofDigitChars_eq_decimal]
    by_cases hm : word.head? = some '-'
    · obtain ⟨rest, rfl⟩ := List.head?_eq_some_iff.mp hm
      exact .minus hne hd
    · rw [if_neg hm]
      have hu : unsigned word = word := by
        unfold unsigned
        split
        · exact absurd rfl hm
        · rfl
      rw [hu] at hne hd ⊢
      exact .plain hne hd

theorem beginsNumeral_iff {word : List Char} : BeginsNumeral word ↔ startsLikeNumber word = true := by
  constructor
  · intro h
    obtain ⟨d, rest, hd, rfl | rfl⟩ := h
    · simp [startsLikeNumber, unsigned_of_isDigit hd, hd]
    · simp [startsLikeNumber, unsigned, hd]
  · intro h
    unfold startsLikeNumber unsigned at h
    split at h
    · rename_i rest
      cases rest with
      | nil => cases h
      | cons d rest => exact ⟨d, rest, h, Or.inr rfl⟩
    · cases word with
      | nil => cases h
      | cons d rest => exact ⟨d, rest, h, Or.inl rfl⟩

theorem beginsNumeral_of_numeral {word digits : List Char} {n : Int} (h : Numeral word digits n) :
    BeginsNumeral word := by
  cases h with
  | plain hne hd =>
    obtain ⟨d, ds, rfl⟩ := List.exists_cons_of_ne_nil hne
    exact ⟨d, ds, hd d (by simp), Or.inl rfl⟩
  | minus hne hd =>
    obtain ⟨d, ds, rfl⟩ := List.exists_cons_of_ne_nil hne
    exact ⟨d, ds, hd d (by simp), Or.inr rfl⟩

/-! ## What a text is written for -/

namespace Lexeme

/-- A text that goes on as a word does, and does not begin as a keyword does. -/
def IsWord (text : List Char) : Prop := ∃ c cs, text = c :: cs ∧ c ≠ ':' ∧ ∀ d ∈ text, isRunning d = true

/-- The token that a text is written for, with names of the table. -/
inductive Written (names : NameTable) : List Char → Token → Prop
  | opener (b : Bracket) : Written names [b.opener] (.opener b)
  | closer (b : Bracket) : Written names [b.closer] (.closer b)
  | string {body : List Char} : Contents body → Written names ('"' :: (body ++ ['"'])) .string
  | keyword {text : List Char} {name : Name} : text ≠ [] → (∀ c ∈ text, isRunning c = true) →
      names.text? name = some (.ofChars text) → Written names (':' :: text) (.keyword name)
  | reserved {word : String} {t : Token} : (word, t) ∈ Token.reserved → Written names word.toList t
  | integer {text digits : List Char} {n : Int} : Numeral text digits n → digits.length ≤ maxDigits →
      InWord n → Written names text (.integer n)
  | symbol {text : List Char} {name : Name} : IsWord text → (∀ t, (String.ofList text, t) ∉ Token.reserved) →
      ¬ BeginsNumeral text → names.text? name = some (.ofChars text) → Written names text (.symbol name)

/-- What is wrong with a text, at a span, that is written for no token. -/
inductive Flawed (span : Span) : List Char → ReadFailure → Prop
  | emptyKeyword : Flawed span [':'] (.error ⟨span, .emptyKeyword⟩)
  | integerRange {text digits : List Char} {n : Int} : Numeral text digits n → digits.length ≤ maxDigits →
      ¬ InWord n → Flawed span text (.error ⟨span, .integerRange⟩)
  | tooManyDigits {text digits : List Char} {n : Int} : Numeral text digits n → maxDigits < digits.length →
      Flawed span text (.tooManyDigits digits.length)
  | malformedInteger {text : List Char} : IsWord text → BeginsNumeral text → (∀ digits n, ¬ Numeral text digits n) →
      Flawed span text (.error ⟨span, .malformedInteger⟩)
  | openString {cs : List Char} : NeverClosed cs → Flawed span ('"' :: cs) (.error ⟨span, .openString⟩)

/-! ## It is the token that is read -/

theorem cut_of_isWord {text : List Char} (h : IsWord text) : Cut .word text [] := by
  obtain ⟨c, cs, rfl, hk, hr⟩ := h
  exact .word hk hr ends_nil

theorem reserved?_eq_some_iff {word : String} {t : Token} :
    Token.reserved? word = some t ↔ (word, t) ∈ Token.reserved := by
  constructor
  · intro h
    obtain ⟨l₁, l₂, hl, -⟩ := List.lookup_eq_some_iff.mp h
    rw [hl]
    simp
  · have hall : ∀ p ∈ Token.reserved, Token.reserved? p.1 = some p.2 := by decide
    exact hall (word, t)

theorem reserved?_eq_none_iff {word : String} :
    Token.reserved? word = none ↔ ∀ t, (word, t) ∉ Token.reserved := by
  constructor
  · intro h t ht
    rw [reserved?_eq_some_iff.mpr ht] at h
    cases h
  · intro h
    cases hr : Token.reserved? word with
    | none => rfl
    | some t => exact absurd (reserved?_eq_some_iff.mp hr) (h t)

theorem reserved?_eq_none_of_beginsNumeral {text : List Char} (h : BeginsNumeral text) :
    Token.reserved? (String.ofList text) = none := by
  have hall : ∀ p ∈ Token.reserved, startsLikeNumber p.1.toList = false := by decide
  refine reserved?_eq_none_iff.mpr fun t ht => ?_
  have hf := hall _ ht
  rw [String.toList_ofList, beginsNumeral_iff.mp h] at hf
  cases hf

/-- A token is what its text is written for, by every table that has grown. -/
theorem written_of_wordToken {names names' u : NameTable} {x : Lexeme} {t : Token} (hw : IsWord x.text)
    (h : x.wordToken names = .ok (t, names')) (hu : names'.Grows u) : Written u x.text t := by
  unfold wordToken at h
  split at h
  · rename_i hr
    cases h
    have hmem := reserved?_eq_some_iff.mp hr
    have hword : Written u (String.ofList x.text).toList t := .reserved hmem
    rwa [String.toList_ofList] at hword
  · rename_i hr
    split at h
    · rename_i hnum
      split at h
      · cases h
      · rename_i hlen
        split at h
        · rename_i hin
          cases h
          exact .integer (numeral_iff.mpr ⟨hnum, rfl, rfl⟩) (Nat.not_lt.mp hlen) hin
        · cases h
    · split at h
      · cases h
      · rename_i hb
        cases h
        refine .symbol hw (reserved?_eq_none_iff.mp hr) (fun hbegin => hb (beginsNumeral_iff.mp hbegin)) ?_
        exact NameTable.text?_of_grows hu (names.text?_intern _)

theorem written_of_token {names names' u : NameTable} {x : Lexeme} {t : Token} {rest : List Char}
    (hc : Cut x.shape x.text rest) (h : x.token names = .ok (t, names')) (hu : names'.Grows u) :
    Written u x.text t := by
  obtain ⟨shape, text, pos⟩ := x
  cases hc with
  | opener b => cases h; exact .opener b
  | closer b => cases h; exact .closer b
  | string _ hb => cases h; exact .string hb
  | openString _ => cases h
  | @keyword cs _ hr _ =>
    cases cs with
    | nil => cases h
    | cons c cs =>
      cases h
      exact .keyword (List.cons_ne_nil c cs) hr (NameTable.text?_of_grows hu (names.text?_intern _))
  | word hk hr _ => exact written_of_wordToken ⟨_, _, rfl, hk, hr⟩ h hu

theorem flawed_of_wordToken {names : NameTable} {x : Lexeme} {f : ReadFailure} (hw : IsWord x.text)
    (h : x.wordToken names = .error f) : Flawed x.span x.text f := by
  unfold wordToken at h
  split at h
  · cases h
  · split at h
    · rename_i hnum
      have hn : Numeral x.text (unsigned x.text) (numberValue x.text) := numeral_iff.mpr ⟨hnum, rfl, rfl⟩
      split at h
      · rename_i hlen
        cases h
        exact .tooManyDigits hn hlen
      · rename_i hlen
        split at h
        · cases h
        · rename_i hin
          cases h
          exact .integerRange hn (Nat.not_lt.mp hlen) hin
    · rename_i hnum
      split at h
      · rename_i hb
        cases h
        exact .malformedInteger hw (beginsNumeral_iff.mpr hb) fun _ _ hn => hnum (numeral_iff.mp hn).1
      · cases h

theorem flawed_of_token {names : NameTable} {x : Lexeme} {f : ReadFailure} {rest : List Char}
    (hc : Cut x.shape x.text rest) (h : x.token names = .error f) : Flawed x.span x.text f := by
  obtain ⟨shape, text, pos⟩ := x
  cases hc with
  | opener b => cases h
  | closer b => cases h
  | string _ _ => cases h
  | openString hn => cases h; exact .openString hn
  | @keyword cs _ hr _ =>
    cases cs with
    | nil => cases h; exact .emptyKeyword
    | cons c cs => cases h
  | word hk hr _ => exact flawed_of_wordToken ⟨_, _, rfl, hk, hr⟩ h

/-! ## Tokens with names and numbers -/

theorem not_reserved {word : String} : (∀ name, (word, .symbol name) ∉ Token.reserved) ∧
    (∀ name, (word, .keyword name) ∉ Token.reserved) ∧ ∀ n, (word, .integer n) ∉ Token.reserved := by
  simp [Token.reserved]

section

variable {names : NameTable} {text : List Char} {name : Name} {n : Int}

/-- The name of a symbol is that of its whole text, which is no reserved word. -/
theorem Written.of_symbol (h : Written names text (.symbol name)) :
    names.text? name = some (.ofChars text) ∧ ∀ t, (String.ofList text, t) ∉ Token.reserved := by
  generalize ht : Token.symbol name = t at h
  cases h with
  | symbol _ hr _ hname => cases ht; exact ⟨hname, hr⟩
  | reserved hmem => subst ht; exact absurd hmem (not_reserved.1 name)
  | _ => cases ht

/-- The name of a keyword is that of its text without the colon. -/
theorem Written.of_keyword (h : Written names text (.keyword name)) :
    ∃ rest, text = ':' :: rest ∧ names.text? name = some (.ofChars rest) := by
  generalize ht : Token.keyword name = t at h
  cases h with
  | keyword _ _ hname => cases ht; exact ⟨_, rfl, hname⟩
  | reserved hmem => subst ht; exact absurd hmem (not_reserved.2.1 name)
  | _ => cases ht

theorem Written.of_integer (h : Written names text (.integer n)) : InWord n := by
  generalize ht : Token.integer n = t at h
  cases h with
  | integer _ _ hin => cases ht; exact hin
  | reserved hmem => subst ht; exact absurd hmem (not_reserved.2.2 n)
  | _ => cases ht

end

/-! ## A text is written for one token, or has one flaw -/

theorem isRunning_of_isDigit {d : Char} (h : d.isDigit = true) : isRunning d = true := by
  have hall : ∀ n < 58, 48 ≤ n → isRunning (Char.ofNat n) = true := by decide
  simp only [Char.isDigit, Bool.and_eq_true, decide_eq_true_eq, ge_iff_le, UInt32.le_iff_toNat_le] at h
  have hd := hall d.toNat (Nat.lt_succ_of_le h.2) h.1
  rwa [Char.ofNat_toNat] at hd

theorem isWord_of_numeral {text digits : List Char} {n : Int} (h : Numeral text digits n) : IsWord text := by
  cases h with
  | plain hne hd =>
    obtain ⟨d, ds, rfl⟩ := List.exists_cons_of_ne_nil hne
    refine ⟨d, ds, rfl, fun hc => ?_, fun c hc => isRunning_of_isDigit (hd c hc)⟩
    have hd0 := hd d (by simp)
    rw [hc] at hd0
    exact absurd hd0 (by decide)
  | minus hne hd =>
    refine ⟨'-', digits, rfl, by decide, fun c hc => ?_⟩
    rcases List.mem_cons.mp hc with rfl | hc
    · decide
    · exact isRunning_of_isDigit (hd c hc)

theorem isWord_of_reserved {word : String} {t : Token} (h : (word, t) ∈ Token.reserved) : IsWord word.toList := by
  have hall : ∀ p ∈ Token.reserved, (p.1.toList.head?.any (· != ':') && p.1.toList.all isRunning) = true := by decide
  have hw := hall _ h
  simp only [Bool.and_eq_true, List.all_eq_true] at hw
  cases hl : word.toList with
  | nil => rw [hl] at hw; cases hw.1
  | cons c cs =>
    rw [hl] at hw
    exact ⟨c, cs, rfl, by simpa using hw.1, hw.2⟩

/-- What is written for a token is the lexeme of that token. -/
theorem token_of_written {names : NameTable} {text : List Char} {t : Token} (h : Written names text t) :
    ∃ shape, Cut shape text [] ∧ ∀ pos, token names ⟨shape, text, pos⟩ = .ok (t, names) := by
  cases h with
  | opener b => exact ⟨.opener b, .opener b [], fun _ => rfl⟩
  | closer b => exact ⟨.closer b, .closer b [], fun _ => rfl⟩
  | string hb => exact ⟨.string, .string [] hb, fun _ => rfl⟩
  | @keyword text name hne hr hn =>
    refine ⟨.keyword, .keyword hr ends_nil, fun pos => ?_⟩
    obtain ⟨c, cs, rfl⟩ := List.exists_cons_of_ne_nil hne
    simp only [token, List.tail_cons, NameTable.intern_of_text? hn]
  | @reserved word t hmem =>
    refine ⟨.word, cut_of_isWord (isWord_of_reserved hmem), fun pos => ?_⟩
    simp only [token, wordToken, String.ofList_toList, reserved?_eq_some_iff.mpr hmem]
  | integer hn hlen hin =>
    refine ⟨.word, cut_of_isWord (isWord_of_numeral hn), fun pos => ?_⟩
    obtain ⟨hnum, rfl, rfl⟩ := numeral_iff.mp hn
    simp only [token, wordToken, reserved?_eq_none_of_beginsNumeral (beginsNumeral_of_numeral hn), if_pos hnum, if_neg (Nat.not_lt.mpr hlen), if_pos hin]
  | @symbol text name hw hr hb hn =>
    refine ⟨.word, cut_of_isWord hw, fun pos => ?_⟩
    have hnum : ¬ isNumber text = true := fun hnum => hb (beginsNumeral_of_numeral (numeral_iff.mpr ⟨hnum, rfl, rfl⟩))
    have hstart : ¬ startsLikeNumber text = true := fun hs => hb (beginsNumeral_iff.mpr hs)
    simp only [token, wordToken, reserved?_eq_none_iff.mpr hr, if_neg hnum, if_neg hstart, NameTable.intern_of_text? hn]

/-- What is flawed is the lexeme of that failure. -/
theorem token_of_flawed {span : Span} {text : List Char} {f : ReadFailure} (h : Flawed span text f)
    (names : NameTable) : ∃ shape, Cut shape text [] ∧ ∀ pos, ∃ g, token names ⟨shape, text, pos⟩ = .error g := by
  cases h with
  | emptyKeyword => exact ⟨.keyword, .keyword (fun _ h => nomatch h) ends_nil, fun _ => ⟨_, rfl⟩⟩
  | integerRange hn hlen hin =>
    refine ⟨.word, cut_of_isWord (isWord_of_numeral hn), fun pos => ?_⟩
    obtain ⟨hnum, rfl, rfl⟩ := numeral_iff.mp hn
    simp only [token, wordToken, reserved?_eq_none_of_beginsNumeral (beginsNumeral_of_numeral hn), if_pos hnum, if_neg (Nat.not_lt.mpr hlen), if_neg hin]
    exact ⟨_, rfl⟩
  | tooManyDigits hn hlen =>
    refine ⟨.word, cut_of_isWord (isWord_of_numeral hn), fun pos => ?_⟩
    obtain ⟨hnum, rfl, rfl⟩ := numeral_iff.mp hn
    simp only [token, wordToken, reserved?_eq_none_of_beginsNumeral (beginsNumeral_of_numeral hn), if_pos hnum, if_pos hlen]
    exact ⟨_, rfl⟩
  | malformedInteger hw hb hn =>
    refine ⟨.word, cut_of_isWord hw, fun pos => ?_⟩
    have hnum : ¬ isNumber text = true := fun hnum => hn _ _ (numeral_iff.mpr ⟨hnum, rfl, rfl⟩)
    simp only [token, wordToken, reserved?_eq_none_of_beginsNumeral hb, if_neg hnum, if_pos (beginsNumeral_iff.mp hb)]
    exact ⟨_, rfl⟩
  | openString hn => exact ⟨.openString, .openString hn, fun _ => ⟨_, rfl⟩⟩

theorem Cut.shape_unique {shape shape' : Shape} {text rest : List Char} (h : Cut shape text rest)
    (h' : Cut shape' text rest) : shape = shape' := by
  obtain ⟨c, cs, rfl⟩ := List.exists_cons_of_ne_nil (ne_nil_of_cut h)
  have he := (extent_of_cut h).2
  rw [(extent_of_cut h').2] at he
  exact (Prod.mk.inj he).1.symm

theorem Written.unique {names : NameTable} {text : List Char} {t t' : Token} (h : Written names text t)
    (h' : Written names text t') : t = t' := by
  obtain ⟨shape, hc, ht⟩ := token_of_written h
  obtain ⟨shape', hc', ht'⟩ := token_of_written h'
  obtain rfl := hc.shape_unique hc'
  have he := (ht 0).symm.trans (ht' 0)
  cases he
  rfl

theorem Written.not_flawed {names : NameTable} {text : List Char} {t : Token} (h : Written names text t)
    (span : Span) (f : ReadFailure) : ¬ Flawed span text f := by
  intro hf
  obtain ⟨shape, hc, ht⟩ := token_of_written h
  obtain ⟨shape', hc', ht'⟩ := token_of_flawed hf names
  obtain rfl := hc.shape_unique hc'
  obtain ⟨g, hg⟩ := ht' 0
  rw [ht 0] at hg
  cases hg

end Lexeme

/-! ## Integers as they are printed -/

/-- An integer is printed as a numeral for it, with as few digits as can be. -/
theorem numeral_toString (n : Int) : Numeral (toString n).toList (Nat.toDigits 10 n.natAbs) n := by
  have hne : Nat.toDigits 10 n.natAbs ≠ [] := Nat.toDigits_ne_nil
  have hdigits : ∀ d ∈ Nat.toDigits 10 n.natAbs, d.isDigit = true :=
    fun d hd => Nat.isDigit_of_mem_toDigits (by decide) (by decide) hd
  have hvalue : decimal (Nat.toDigits 10 n.natAbs) = n.natAbs := by
    rw [← ofDigitChars_eq_decimal, Nat.ofDigitChars_ten_toDigits]
  rw [Int.toString_eq_repr, Int.repr_eq_if]
  split
  · have htext : n.toNat.repr.toList = Nat.toDigits 10 n.natAbs := by
      rw [Nat.toList_repr, show n.toNat = n.natAbs by omega]
    have hn : (decimal (Nat.toDigits 10 n.natAbs) : Int) = n := by omega
    have hplain := Numeral.plain hne hdigits
    rw [hn] at hplain
    rwa [htext]
  · have htext : ("-" ++ (-n).toNat.repr).toList = '-' :: Nat.toDigits 10 n.natAbs := by
      rw [String.toList_append, Nat.toList_repr, show (-n).toNat = n.natAbs by omega]
      rfl
    have hn : -(decimal (Nat.toDigits 10 n.natAbs) : Int) = n := by omega
    have hminus := Numeral.minus hne hdigits
    rw [hn] at hminus
    rwa [htext]

theorem length_toDigits_of_inWord {n : Int} (h : InWord n) : (Nat.toDigits 10 n.natAbs).length ≤ maxDigits := by
  have hlt : n.natAbs < 10 ^ 19 := by
    simp only [InWord, minWord, maxWord] at h
    omega
  have hlen := (Nat.length_toDigits_le_iff (by decide) (by decide)).mpr hlt
  exact Nat.le_trans hlen (by decide)

end LineLisp
