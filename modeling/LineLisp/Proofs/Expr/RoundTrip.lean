/-
  LineLisp.Proofs.Expr.RoundTrip — what is printed is read back.

  The canonical text of an expression has the lexemes of the line that the expression
  was read from, at other places (`keys_canonical`). So it has the same tokens, and the
  reader makes a matching expression of them: only the spans differ, and corresponding
  atoms have the same text in the two lines (`Source.read_canonical`). Printing that
  expression gives the canonical text again (`print_eq_of_sameTree`).
-/

import LineLisp.Proofs.Expr.Places
import LineLisp.Proofs.Expr.Printing
import LineLisp.Proofs.Spelled.Reading

namespace LineLisp

/-! ## The names after reading -/

namespace Reader

/-- A line that is read leaves the names of all its tokens. -/
theorem names_readFrom {line eof : Span} {names : NameTable} {gs : List OpenGroup} {xs : List Lexeme} {e : Expr}
    (h : (readFrom line eof names gs xs).1 = .ok e) :
    (readFrom line eof names gs xs).2 = (tokens names xs).2.2 := by
  induction xs generalizing names gs with
  | nil => cases h
  | cons x xs ih =>
    cases hx : x.token names with
    | error f => simp [readFrom, hx] at h
    | ok r =>
      rw [tokens_cons_ok hx]
      simp only [readFrom, hx] at h ⊢
      cases hs : step line gs ⟨r.1, x.span⟩ with
      | error f => simp [hs] at h
      | ok p =>
        cases p with
        | pending gs => simp only [hs] at h ⊢; exact ih h
        | complete e' =>
          simp only [hs] at h ⊢
          cases xs with
          | nil => rfl
          | cons y ys =>
            cases hy : y.token r.2 with
            | error f => simp [finish, hy] at h
            | ok r' => simp [finish, hy] at h

end Reader

namespace Source

variable {src src' : Source} {names : NameTable} {e : Expr}

/-- Reading a line is reading its tokens, if it has them all. -/
theorem read_eq_ok_iff {names' : NameTable} : src.read names = (.ok e, names') ↔
    (src.tokens names).2 = (none, names') ∧ Reader.readTokens? src.span [] (src.tokens names).1 = some e := by
  constructor
  · intro h
    have hok : (src.read names).1 = .ok e := by rw [h]
    obtain ⟨hn, hr⟩ := (Reader.readFrom_eq_ok_iff src.span).mp hok
    have hnames : (src.read names).2 = names' := by rw [h]
    exact ⟨Prod.ext hn ((Reader.names_readFrom hok).symm.trans hnames), hr⟩
  · intro h
    obtain ⟨hn, hr⟩ := h
    have hok : (src.read names).1 = .ok e := (Reader.readFrom_eq_ok_iff src.span).mpr ⟨congrArg Prod.fst hn, hr⟩
    exact Prod.ext hok ((Reader.names_readFrom hok).trans (congrArg Prod.snd hn))

/-- A line that is read has all its tokens, and the expression is written with them. -/
theorem tokens_of_read {names' : NameTable} (h : src.read names = (.ok e, names')) :
    (src.tokens names).2.1 = none ∧ e.flatten? = some (src.tokens names).1 := by
  obtain ⟨hn, hr⟩ := read_eq_ok_iff.mp h
  exact ⟨congrArg Prod.fst hn, (Reader.sentence_of_readTokens? src.span .none (layout_tokens src names) hr).1⟩

/-- Reading a line with its names there already gives the same expression, and no names. -/
theorem read_of_grows {names' table : NameTable} (h : src.read names = (.ok e, names')) (ht : names'.Grows table) :
    src.read table = (.ok e, table) := by
  obtain ⟨hn, hr⟩ := read_eq_ok_iff.mp h
  have hstop : (src.tokens names).2.1 = none := by rw [hn]
  have hgrow : (src.tokens names).2.2.Grows table := by rw [hn]; exact ht
  have htokens : src.tokens table = ((src.tokens names).1, none, table) := tokens_of_grows hstop hgrow
  exact read_eq_ok_iff.mpr ⟨by rw [htokens], by rw [htokens]; exact hr⟩

/-! ## The tokens of a line in its lexemes -/

/-- Each token of a line has a lexeme of its own, and no lexeme is left over if all
    have tokens. -/
theorem forall₂_lexemes (h : (src.tokens names).2.1 = none) :
    List.Forall₂ (fun t x => x ∈ src.lexemes ∧ t.span = x.span ∧ t.key src = x.key) (src.tokens names).1 src.lexemes := by
  refine (forall₂_mem_right (forall₂_of_tokens h)).imp fun t x hx => ?_
  obtain ⟨hmem, hspan, n, n', hn, -⟩ := hx
  obtain ⟨-, hslice, -⟩ := cut_of_mem_lexemes hmem
  refine ⟨hmem, hspan, Prod.ext (Lexeme.shape_of_token hn).symm ?_⟩
  show src.slice t.span = x.text
  rw [hspan, hslice]

theorem map_key_tokens (h : (src.tokens names).2.1 = none) :
    (src.tokens names).1.map (PlacedToken.key src) = src.lexemes.map Lexeme.key :=
  map_eq_map_iff_forall₂.mpr ((forall₂_lexemes h).imp fun _ _ hx => hx.2.2)

/-- A lexeme with a token is no open string, so it is cut alike before whatever ends a run. -/
theorem cuts_tokens (h : (src.tokens names).2.1 = none) : src.Cuts (src.tokens names).1 := by
  intro t ht rest hr
  obtain ⟨x, -, hmem, -, hkey⟩ := exists_of_forall₂_left (forall₂_lexemes h) ht
  obtain ⟨hshape, htext⟩ : t.token.shape = x.shape ∧ src.slice t.span = x.text := Prod.mk.inj hkey
  obtain ⟨hcut, -, -⟩ := cut_of_mem_lexemes hmem
  rw [htext, hshape]
  refine hcut.of_ends ?_ hr
  rw [← hshape]
  cases t.token <;> exact fun hs => nomatch hs

/-- The canonical text of an expression has the lexemes of its line. -/
theorem keys_canonical (h : (src.tokens names).2.1 = none) (he : e.flatten? = some (src.tokens names).1) :
    src.lexemes.map Lexeme.key = (src.canonical e).lexemes.map Lexeme.key := by
  have hprint := Expr.keys_print he (cuts_tokens h) Lexeme.ends_nil
  rw [List.append_nil, Lexeme.keys_nil, List.append_nil] at hprint
  rw [← map_key_tokens h, ← hprint]
  exact (map_key_lexemes (src.canonical e)).symm

/-! ## Two lines with the same lexemes -/

theorem forall₂_sameText (h : src.lexemes.map Lexeme.key = src'.lexemes.map Lexeme.key) :
    List.Forall₂ (fun x y => x.key = y.key ∧ SameText src src' x.span y.span) src.lexemes src'.lexemes := by
  refine (forall₂_mem_left (forall₂_mem_right (map_eq_map_iff_forall₂.mp h))).imp fun x y hxy => ?_
  obtain ⟨hx, hy, hkey⟩ := hxy
  obtain ⟨-, hslice, hin⟩ := cut_of_mem_lexemes hx
  obtain ⟨-, hslice', hin'⟩ := cut_of_mem_lexemes hy
  refine ⟨hkey, hin, hin', ?_⟩
  rw [hslice, hslice']
  exact (Prod.mk.inj hkey).2

end Source

/-! ## The tree again -/

namespace Expr

variable {src src' : Source}

mutual

/-- The same trees have the same canonical text. -/
theorem print_eq_of_sameTree {e e' : Expr} (h : e.SameTree src src' e') : e'.print src' = e.print src := by
  match e with
  | atom span a =>
    cases h with
    | atom _ hspan => exact hspan.slice.symm
  | group span b items =>
    cases h with
    | group _ _ hi => rw [print, print, printEach_eq_of_sameTree hi]

theorem printEach_eq_of_sameTree {es es' : List Expr} (h : List.Forall₂ (SameTree src src') es es') :
    printEach src' es' = printEach src es := by
  match es with
  | [] => cases h; rfl
  | e :: es =>
    cases h with
    | cons he hes => rw [printEach, printEach, print_eq_of_sameTree he, printRest_eq_of_sameTree hes]

theorem printRest_eq_of_sameTree {es es' : List Expr} (h : List.Forall₂ (SameTree src src') es es') :
    printRest src' es' = printRest src es := by
  match es with
  | [] => cases h; rfl
  | e :: es =>
    cases h with
    | cons he hes => rw [printRest, printRest, print_eq_of_sameTree he, printRest_eq_of_sameTree hes]

end

end Expr

namespace Source

variable {src : Source} {names names' : NameTable} {e : Expr}

/-- A line with the same lexemes is read as the same tree with the same names. -/
theorem read_of_keys {src' : Source} (h : src.read names = (.ok e, names'))
    (hkeys : src.lexemes.map Lexeme.key = src'.lexemes.map Lexeme.key) :
    ∃ e', src'.read names = (.ok e', names') ∧ e.SameTree src src' e' := by
  obtain ⟨hn, hr⟩ := read_eq_ok_iff.mp h
  obtain ⟨ht, hn'⟩ := tokens_of_key_eq (forall₂_sameText hkeys) (tokens_of_read h).1
  obtain ⟨e', hr', hm⟩ := Reader.readTokens?_matched ht .nil hr
  exact ⟨e', read_eq_ok_iff.mpr ⟨hn'.trans hn, hr'⟩, hm⟩

/-- The canonical text is read as the same tree with the same names. -/
theorem read_canonical (h : src.read names = (.ok e, names')) :
    ∃ e', (src.canonical e).read names = (.ok e', names') ∧ e.SameTree src (src.canonical e) e' := by
  obtain ⟨hstop, he⟩ := tokens_of_read h
  exact read_of_keys h (keys_canonical hstop he)

/-- No two nodes of what a line is read as have the same span. -/
theorem nodup_spans_of_read (h : src.read names = (.ok e, names')) : (e.nodes.map Expr.span).Nodup := by
  obtain ⟨hstop, he⟩ := tokens_of_read h
  refine Expr.nodup_spans he (layout_tokens src names).ordered fun t ht => ?_
  obtain ⟨x, -, hmem, hspan, -⟩ := exists_of_forall₂_left (forall₂_lexemes hstop) ht
  rw [hspan]
  exact lo_lt_hi_of_mem_lexemes hmem

/-- Whatever the table, a line that is read with one is read with another, as an
    expression that the tables spell out alike. -/
theorem read_spells_alike (h : src.read names = (.ok e, names')) (table : NameTable) :
    ∃ e' f, (src.read table).1 = .ok e' ∧ e.spelled? names' = some f ∧ e'.spelled? (src.read table).2 = some f := by
  obtain ⟨-, hout⟩ := src.read_spells names
  obtain ⟨-, hout'⟩ := src.read_spells table
  rw [h] at hout
  generalize Spelled.read src = r at hout hout'
  cases hout with
  | @ok _ f he =>
    generalize hx : (src.read table).1 = x at hout'
    cases hout' with
    | ok he' => exact ⟨_, f, rfl, he, he'⟩

/-- What is printed is read back: the canonical text of an expression, read from its
    own start, is the same tree with the same text at every atom, and has itself as its
    canonical text. With the names of the line the expression has the same names, with
    others names of the same texts. -/
theorem canonical_reads_back (src : Source) (names : NameTable) (e : Expr) (h : (src.read names).1 = .ok e) :
    ∃ e', e.SameTree src (src.canonical e) e' ∧ e'.print (src.canonical e) = e.print src ∧
      (src.canonical e).read names = (.ok e', (src.read names).2) ∧
      (∀ table, (src.read names).2.Grows table → (src.canonical e).read table = (.ok e', table)) ∧
      ∀ table, ∃ e'' f, ((src.canonical e).read table).1 = .ok e'' ∧ e'.spelled? (src.read names).2 = some f ∧
        e''.spelled? ((src.canonical e).read table).2 = some f := by
  obtain ⟨e', hread, htree⟩ := read_canonical (Prod.ext h rfl)
  exact ⟨e', htree, Expr.print_eq_of_sameTree htree, hread, fun table => read_of_grows hread, read_spells_alike hread⟩

theorem eq_ok_of_toOption {ε α : Type} {x : Except ε α} {a : α} (h : x.toOption = some a) : x = .ok a := by
  cases x with
  | error _ => cases h
  | ok _ => cases h; rfl

/-- A string right after a name, and a comma: neither is in the canonical text. -/
theorem canonical_reads_back_after_name :
    let src : Source := ⟨"(f\"a b\",[:k])".toList, 3⟩
    ∃ e e', (src.read .empty).1 = .ok e ∧ e.print src = "(f \"a b\" [:k])".toList ∧
      ((src.canonical e).read .empty).1 = .ok e' ∧ e.SameTree src (src.canonical e) e' ∧
      e'.print (src.canonical e) = "(f \"a b\" [:k])".toList := by
  intro src
  have hprint : ((Source.mk "(f\"a b\",[:k])".toList 3).read .empty).1.toOption.map
      (·.print ⟨"(f\"a b\",[:k])".toList, 3⟩) = some "(f \"a b\" [:k])".toList := by decide +kernel
  obtain ⟨e, he, hprint⟩ := Option.map_eq_some_iff.mp hprint
  have hread : (src.read .empty).1 = .ok e := eq_ok_of_toOption he
  obtain ⟨e', htree, hagain, hback, -⟩ := canonical_reads_back src .empty e hread
  exact ⟨e, e', hread, hprint, congrArg Prod.fst hback, htree, hagain.trans hprint⟩

end Source

end LineLisp
