/-
  LineLisp.Proofs.Expr.Printing — the lexemes of a canonical text.

  `Lexeme.keys` is what the lexemes of a text are apart from their places. In a
  canonical text every atom and every bracket of the expression is found again, though
  another character may stand before or after it now, and nothing else is
  (`keys_print`): an atom is followed by a space, by a closing bracket or by the end, and
  all of these end a keyword or a word.
-/

import LineLisp.Expr
import LineLisp.Proofs.Expr.Flattening
import LineLisp.Proofs.Lexeme.Cutting
import LineLisp.Proofs.Lexeme.Tokens

namespace LineLisp

/-! ## Lexemes apart from their places -/

namespace Lexeme

theorem map_key_ofChars (pos pos' : Int) (cs : List Char) :
    (ofChars pos cs).map key = (ofChars pos' cs).map key := by
  fun_induction ofChars pos cs generalizing pos' with
  | case1 => rw [ofChars]
  | case2 pos c rest hs ih =>
    rw [ofChars, if_pos hs]
    exact ih (pos' + 1)
  | case3 pos c rest hs shape n he ih =>
    rw [ofChars, if_neg hs, he]
    exact congrArg (List.cons (shape, c :: rest.take n)) (ih (pos' + 1 + n))

/-- The lexemes of a text, apart from their places. -/
def keys (cs : List Char) : List (Shape × List Char) := (ofChars 0 cs).map key

theorem keys_nil : keys [] = [] := by rw [keys, ofChars, List.map_nil]

theorem keys_append_of_cut {shape : Shape} {text rest : List Char} (h : Cut shape text rest) :
    keys (text ++ rest) = (shape, text) :: keys rest := by
  rw [keys, ofChars_append_of_cut h, List.map_cons, map_key_ofChars _ 0]
  rfl

theorem keys_separator {c : Char} (h : isSeparator c = true) (rest : List Char) : keys (c :: rest) = keys rest := by
  rw [keys, ofChars_separator h, map_key_ofChars _ 0]
  rfl

theorem keys_append_of_separators {seps : List Char} (h : ∀ c ∈ seps, isSeparator c = true) (rest : List Char) :
    keys (seps ++ rest) = keys rest := by
  induction seps with
  | nil => rfl
  | cons c seps ih =>
    obtain ⟨hc, hseps⟩ := List.forall_mem_cons.mp h
    rw [List.cons_append, keys_separator hc, ih hseps]

end Lexeme

theorem Source.map_key_lexemes (src : Source) : src.lexemes.map Lexeme.key = Lexeme.keys src.text :=
  Lexeme.map_key_ofChars src.start 0 src.text

/-! ## Tokens as lexemes -/

/-- What the lexeme of a token is, apart from its place. -/
def PlacedToken.key (src : Source) (t : PlacedToken) : Shape × List Char := (t.token.shape, src.slice t.span)

/-- The text of each token is a lexeme of its shape before whatever ends a run. -/
def Source.Cuts (src : Source) (ts : List PlacedToken) : Prop :=
  ∀ t ∈ ts, ∀ rest, Lexeme.Ends rest → Lexeme.Cut t.token.shape (src.slice t.span) rest

namespace Source.Cuts

variable {src : Source} {t : PlacedToken} {ts us : List PlacedToken}

theorem append_left (h : src.Cuts (ts ++ us)) : src.Cuts ts := fun t ht => h t (List.mem_append_left us ht)

theorem append_right (h : src.Cuts (ts ++ us)) : src.Cuts us := fun t ht => h t (List.mem_append_right ts ht)

theorem tail (h : src.Cuts (t :: ts)) : src.Cuts ts := fun u hu => h u (List.mem_cons_of_mem t hu)

end Source.Cuts

/-! ## Canonical text -/

namespace Expr

open Lexeme (keys Ends ends_cons keys_append_of_cut keys_separator)

theorem text_of_cut_opener {b : Bracket} {text rest : List Char} (h : Lexeme.Cut (.opener b) text rest) :
    text = [b.opener] := by
  cases h
  rfl

theorem text_of_cut_closer {b : Bracket} {text rest : List Char} (h : Lexeme.Cut (.closer b) text rest) :
    text = [b.closer] := by
  cases h
  rfl

theorem ends_closer (b : Bracket) (rest : List Char) : Ends (b.closer :: rest) := by
  refine ends_cons ?_ rest
  cases b <;> decide

theorem ends_printRest (src : Source) (es : List Expr) {rest : List Char} (h : Ends rest) :
    Ends (printRest src es ++ rest) := by
  cases es with
  | nil => exact h
  | cons e es => exact ends_cons (by decide) _

mutual

/-- The lexemes of a canonical text are those of the tokens that the expression is
    written with. -/
theorem keys_print {src : Source} {e : Expr} {ts : List PlacedToken} (he : e.flatten? = some ts)
    (hc : src.Cuts ts) {rest : List Char} (hr : Ends rest) :
    keys (e.print src ++ rest) = ts.map (PlacedToken.key src) ++ keys rest := by
  match e with
  | atom span a =>
    obtain ⟨t, -, rfl⟩ := Option.map_eq_some_iff.mp he
    -- the atom's own text, and whatever stands after it now ends it as well
    have hcut : Lexeme.Cut t.shape (src.slice span) rest := hc ⟨t, span⟩ List.mem_cons_self rest hr
    exact keys_append_of_cut hcut
  | group span b items =>
    obtain ⟨us, hi, rfl⟩ := Option.map_eq_some_iff.mp he
    have hfirst := text_of_cut_opener (hc (b.first span) List.mem_cons_self [] Lexeme.ends_nil)
    have hlast := text_of_cut_closer (hc (b.last span) (by simp) [] Lexeme.ends_nil)
    have hinside := keys_printEach hi hc.tail.append_left (ends_closer b rest)
    have hopen : keys (b.opener :: (printEach src items ++ b.closer :: rest))
        = (.opener b, [b.opener]) :: keys (printEach src items ++ b.closer :: rest) :=
      keys_append_of_cut (.opener b _)
    have hclose : keys (b.closer :: rest) = (.closer b, [b.closer]) :: keys rest :=
      keys_append_of_cut (.closer b rest)
    simp only [print, List.cons_append, List.append_assoc, List.nil_append, List.map_cons, List.map_append,
      List.map_nil, PlacedToken.key, hfirst, hlast]
    rw [hopen, hinside, hclose]
    rfl

theorem keys_printEach {src : Source} {es : List Expr} {ts : List PlacedToken} (he : flattenEach? es = some ts)
    (hc : src.Cuts ts) {rest : List Char} (hr : Ends rest) :
    keys (printEach src es ++ rest) = ts.map (PlacedToken.key src) ++ keys rest := by
  match es with
  | [] => cases he; rfl
  | e :: es =>
    obtain ⟨us, vs, hu, hv, rfl⟩ := flattenEach?_cons_eq_some.mp he
    have hrest := keys_printRest hv hc.append_right hr
    rw [printEach, List.append_assoc, keys_print hu hc.append_left (ends_printRest src es hr), hrest,
      List.map_append, List.append_assoc]

theorem keys_printRest {src : Source} {es : List Expr} {ts : List PlacedToken} (he : flattenEach? es = some ts)
    (hc : src.Cuts ts) {rest : List Char} (hr : Ends rest) :
    keys (printRest src es ++ rest) = ts.map (PlacedToken.key src) ++ keys rest := by
  match es with
  | [] => cases he; rfl
  | e :: es =>
    obtain ⟨us, vs, hu, hv, rfl⟩ := flattenEach?_cons_eq_some.mp he
    have hrest := keys_printRest hv hc.append_right hr
    rw [printRest, List.cons_append, keys_separator (by decide), List.append_assoc,
      keys_print hu hc.append_left (ends_printRest src es hr), hrest, List.map_append, List.append_assoc]

end

end Expr

/-- A line of its own for the canonical text of an expression of this one. -/
def Source.canonical (src : Source) (e : Expr) : Source := ⟨e.print src, 0⟩

end LineLisp
