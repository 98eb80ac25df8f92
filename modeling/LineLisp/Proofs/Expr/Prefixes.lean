/-
  LineLisp.Proofs.Expr.Prefixes — tokens that an expression may begin with.

  Tokens are viable if they can go on to a sentence of the grammar (`Viable`); reading
  can go on after tokens if more of them complete an expression (`CanGoOn`). The two are
  the same (`canGoOn_iff_viable`), since the reader takes just the sentences, wherever
  their tokens stand (`readTokens?_iff_sentence`). Groups that are open can always be
  closed, so the reader fails at the first token that makes the tokens so far no longer
  viable, and at no other.
-/

import LineLisp.Proofs.Expr.Matching
import LineLisp.Proofs.Expr.Unfinished

namespace LineLisp

/-- Tokens that a sentence begins with. -/
def Grammar.Viable (depth : Nat) (ts : List Token) : Prop := ∃ more, Sentence depth (ts ++ more)

open Grammar

/-! ## Sentences, wherever their tokens stand -/

/-- Tokens side by side, each one character wide. -/
def Token.sideBySide (ts : List Token) : List PlacedToken := ts.mapIdx fun i t => ⟨t, Span.ofLength i 1⟩

theorem Token.map_token_sideBySide (ts : List Token) : (sideBySide ts).map (·.token) = ts :=
  List.ext_getElem (by simp [sideBySide]) (by simp [sideBySide])

theorem Token.layout_sideBySide (ts : List Token) : Layout (sideBySide ts) where
  ordered := List.pairwise_iff_getElem.mpr fun i j hi hj hij => by
    simp only [sideBySide, List.getElem_mapIdx, PlacedToken.Before, Span.ofLength]
    omega
  narrow := fun t ht _ => by
    obtain ⟨i, hi, rfl⟩ := List.mem_mapIdx.mp ht
    rfl

namespace Reader

variable {line : Span} {groups groups' : List OpenGroup} {t : PlacedToken} {ts : List PlacedToken}

/-- Tokens are read exactly if they are a sentence within the limit. -/
theorem readTokens?_iff_sentence :
    (∃ e, readTokens? line [] ts = some e) ↔ Sentence maxOpen (ts.map (·.token)) := by
  constructor
  · rintro ⟨e, he⟩
    -- the same tokens, but laid out as those of a line are
    have hsame : List.Forall₂ (SameToken AnySpans) ts (Token.sideBySide (ts.map (·.token))) := by
      have hmap := (Token.map_token_sideBySide (ts.map (·.token))).symm
      exact (map_eq_map_iff_forall₂.mp hmap).imp fun _ _ h => ⟨h, trivial⟩
    obtain ⟨e', he', -⟩ := @readTokens?_matched _ _ _ line line _ _ _ hsame .nil he
    have hs : Sentence maxOpen ((Token.sideBySide (ts.map (·.token))).map (·.token)) :=
      (sentence_of_readTokens? line .none (Token.layout_sideBySide _) he').2
    rwa [Token.map_token_sideBySide] at hs
  · intro h
    obtain ⟨e, he⟩ := readTokens?_sentence line h [] (Nat.le_of_eq (Nat.zero_add _)) rfl
    have hr := he []
    rw [List.append_nil] at hr
    exact ⟨e, hr⟩

/-! ## Reading on -/

/-- Tokens that can be read if more of them follow. -/
def CanGoOn (line : Span) (groups : List OpenGroup) (ts : List PlacedToken) : Prop :=
  ∃ more e, readTokens? line groups (ts ++ more) = some e

/-- Reading can go on as long as it has not failed: an atom may come first, and open groups
    may be closed. -/
theorem canGoOn_nil (line : Span) (groups : List OpenGroup) : CanGoOn line groups [] := by
  cases groups with
  | nil => exact ⟨[⟨.nil, line⟩], _, rfl⟩
  | cons g outer =>
    have hclosers : ((g :: outer).map fun g => (⟨.closer g.bracket, line⟩ : PlacedToken)).map (·.token)
        = (g :: outer).map fun g => .closer g.bracket := List.map_map
    obtain ⟨e, he⟩ := readTokens?_closers (List.cons_ne_nil g outer) hclosers
    exact ⟨_, e, he⟩

theorem canGoOn_cons_of_pending (h : step line groups t = .ok (.pending groups')) :
    CanGoOn line groups (t :: ts) ↔ CanGoOn line groups' ts := by
  simp only [CanGoOn, List.cons_append, readTokens?_cons line h, resume?]

/-- Nothing may follow the expression. -/
theorem canGoOn_cons_of_complete {e : Expr} (h : step line groups t = .ok (.complete e)) :
    CanGoOn line groups (t :: ts) ↔ ts = [] := by
  simp only [CanGoOn, List.cons_append, readTokens?_cons line h, resume?]
  constructor
  · rintro ⟨more, e', he'⟩
    split at he'
    · rename_i hempty
      exact (List.append_eq_nil_iff.mp (List.isEmpty_iff.mp hempty)).1
    · cases he'
  · rintro rfl
    exact ⟨[], e, rfl⟩

theorem not_canGoOn_cons_of_error {err : ReadError} (h : step line groups t = .error err) :
    ¬ CanGoOn line groups (t :: ts) := by
  rintro ⟨more, e, he⟩
  rw [List.cons_append, readTokens?, h] at he
  cases he

/-- Reading can go on after tokens exactly if they are viable. -/
theorem canGoOn_iff_viable : CanGoOn line [] ts ↔ Viable maxOpen (ts.map (·.token)) := by
  constructor
  · rintro ⟨more, e, he⟩
    refine ⟨more.map (·.token), ?_⟩
    rw [← List.map_append]
    exact readTokens?_iff_sentence.mp ⟨e, he⟩
  · rintro ⟨more, hs⟩
    refine ⟨Token.sideBySide more, readTokens?_iff_sentence.mpr ?_⟩
    rwa [List.map_append, Token.map_token_sideBySide]

end Reader

end LineLisp
