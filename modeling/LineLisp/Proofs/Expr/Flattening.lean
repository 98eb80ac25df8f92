/-
  LineLisp.Proofs.Expr.Flattening — an expression as the tokens it is written with,
  from left to right: an atom is its own token, a group is its opener, its items and
  its closer. A bracket stands at an end of the group's span. An expression with an
  atom of an unknown kind is written with no tokens. The tokens and their places
  determine the expression (`flatten?_injective`).
-/

import Mathlib.Data.Option.NAry
import LineLisp.Expr
import LineLisp.Proofs.Lexeme.Layout

namespace LineLisp

/-- The token an atom is written with. -/
def Atom.token? : Atom → Option Token
  | bool b => some (.bool b)
  | integer n => some (.integer n)
  | keyword name => some (.keyword name)
  | nil => some .nil
  | string => some .string
  | symbol name => some (.symbol name)
  | operator op => some (.operator op)
  | unknown _ => none

theorem Atom.isBracket_token? {a : Atom} {t : Token} (h : a.token? = some t) : t.isBracket = false := by
  cases a <;> simp only [token?, Option.some.injEq, reduceCtorEq] at h <;> subst h <;> rfl

theorem Atom.token?_injective {a b : Atom} {t : Token} (ha : a.token? = some t) (hb : b.token? = some t) :
    a = b := by
  cases a <;> simp only [token?, Option.some.injEq, reduceCtorEq] at ha <;> subst ha <;>
    cases b <;> simp_all [token?]

/-- The brackets of a group with this span. -/
def Bracket.first (b : Bracket) (span : Span) : PlacedToken := ⟨.opener b, Span.ofLength span.lo 1⟩

def Bracket.last (b : Bracket) (span : Span) : PlacedToken := ⟨.closer b, Span.ofLength (span.hi - 1) 1⟩

theorem Bracket.first_join (b : Bracket) {s t : Span} (hs : s = Span.ofLength s.lo 1) (h : s.hi ≤ t.lo) :
    b.first (s.join t) = ⟨.opener b, s⟩ := by
  have hlo : (s.join t).lo = s.lo := by
    have := s.lo_le_hi
    simp only [Span.join]; omega
  rw [first, hlo, ← hs]

theorem Bracket.last_join (b : Bracket) {s t : Span} (ht : t = Span.ofLength t.lo 1) (h : s.hi ≤ t.lo) :
    b.last (s.join t) = ⟨.closer b, t⟩ := by
  have hhi : (s.join t).hi - 1 = t.lo := by
    have hw : t.hi = t.lo + 1 := congrArg Span.hi ht
    simp only [Span.join]; omega
  rw [last, hhi, ← ht]

namespace Expr

mutual

def flatten? : Expr → Option (List PlacedToken)
  | atom span a => a.token?.map fun t => [⟨t, span⟩]
  | group span b items => (flattenEach? items).map fun ts => b.first span :: (ts ++ [b.last span])

def flattenEach? : List Expr → Option (List PlacedToken)
  | [] => some []
  | e :: es => e.flatten?.bind fun ts => (flattenEach? es).map (ts ++ ·)

end

theorem flattenEach?_cons_eq_some {e : Expr} {es : List Expr} {ts : List PlacedToken} :
    flattenEach? (e :: es) = some ts ↔
      ∃ us vs, e.flatten? = some us ∧ flattenEach? es = some vs ∧ ts = us ++ vs := by
  have h : flattenEach? (e :: es) = Option.map₂ (· ++ ·) e.flatten? (flattenEach? es) := rfl
  rw [h, Option.map₂_eq_some_iff]
  simp only [Option.mem_def, eq_comm]

theorem flattenEach?_append {es fs : List Expr} {ts us : List PlacedToken}
    (he : flattenEach? es = some ts) (hf : flattenEach? fs = some us) :
    flattenEach? (es ++ fs) = some (ts ++ us) := by
  induction es generalizing ts with
  | nil => cases he; exact hf
  | cons e es ih =>
    obtain ⟨vs, ws, hv, hw, rfl⟩ := flattenEach?_cons_eq_some.mp he
    exact flattenEach?_cons_eq_some.mpr ⟨vs, ws ++ us, hv, ih hw, List.append_assoc ..⟩

theorem flattenEach?_singleton {e : Expr} {ts : List PlacedToken} (h : e.flatten? = some ts) :
    flattenEach? [e] = some ts :=
  flattenEach?_cons_eq_some.mpr ⟨ts, [], h, rfl, (List.append_nil ts).symm⟩

/-- An expression starts with a token that closes nothing. -/
theorem flatten?_eq_cons {e : Expr} {ts : List PlacedToken} (h : e.flatten? = some ts) :
    ∃ t us, ts = t :: us ∧ ∀ b, t.token ≠ .closer b := by
  cases e with
  | atom span a =>
    obtain ⟨t, ht, rfl⟩ := Option.map_eq_some_iff.mp h
    refine ⟨⟨t, span⟩, [], rfl, fun b hb => ?_⟩
    have := Atom.isBracket_token? ht
    rw [show t = .closer b from hb] at this
    cases this
  | group span b items =>
    obtain ⟨us, -, rfl⟩ := Option.map_eq_some_iff.mp h
    exact ⟨b.first span, us ++ [b.last span], rfl, fun _ hb => nomatch hb⟩

private theorem span_eq_of_ends {s t : Span} {b c : Bracket} (hf : b.first s = c.first t)
    (hl : b.last s = c.last t) : s = t ∧ b = c := by
  cases s; cases t
  simp only [Bracket.first, Bracket.last, PlacedToken.mk.injEq, Token.opener.injEq, Span.ofLength,
    Span.mk.injEq] at hf hl ⊢
  obtain ⟨hb, hlo, -⟩ := hf
  obtain ⟨-, -, hhi⟩ := hl
  exact ⟨⟨hlo, by omega⟩, hb⟩

/-! ## The expression back from its tokens -/

mutual

/-- Two expressions that the same tokens start with are the same. -/
theorem eq_of_flatten?_append {e f : Expr} {ts us r r' : List PlacedToken} (he : e.flatten? = some ts)
    (hf : f.flatten? = some us) (h : ts ++ r = us ++ r') : e = f ∧ r = r' := by
  match e, f with
  | atom span a, atom span' a' =>
    obtain ⟨t, ht, rfl⟩ := Option.map_eq_some_iff.mp he
    obtain ⟨t', ht', rfl⟩ := Option.map_eq_some_iff.mp hf
    obtain ⟨h, hr⟩ := List.cons.inj h
    obtain ⟨rfl, rfl⟩ := PlacedToken.mk.inj h
    exact ⟨by rw [Atom.token?_injective ht ht'], hr⟩
  | atom span a, group span' b items =>
    obtain ⟨t, ht, rfl⟩ := Option.map_eq_some_iff.mp he
    obtain ⟨vs, -, rfl⟩ := Option.map_eq_some_iff.mp hf
    obtain ⟨rfl, -⟩ := PlacedToken.mk.inj (List.cons.inj h).1
    cases Atom.isBracket_token? ht
  | group span b items, atom span' a =>
    obtain ⟨vs, -, rfl⟩ := Option.map_eq_some_iff.mp he
    obtain ⟨t, ht, rfl⟩ := Option.map_eq_some_iff.mp hf
    obtain ⟨rfl, -⟩ := PlacedToken.mk.inj (List.cons.inj h).1
    cases Atom.isBracket_token? ht
  | group span b items, group span' b' items' =>
    obtain ⟨vs, hv, rfl⟩ := Option.map_eq_some_iff.mp he
    obtain ⟨vs', hv', rfl⟩ := Option.map_eq_some_iff.mp hf
    simp only [List.cons_append, List.append_assoc, List.nil_append] at h
    obtain ⟨hfirst, h⟩ := List.cons.inj h
    obtain ⟨hitems, hlast, hr⟩ := eq_of_flattenEach?_append hv hv' ⟨b, rfl⟩ ⟨b', rfl⟩ h
    obtain ⟨rfl, rfl⟩ := span_eq_of_ends hfirst hlast
    exact ⟨by rw [hitems], hr⟩

theorem eq_of_flattenEach?_append {es fs : List Expr} {ts us r r' : List PlacedToken} {c c' : PlacedToken}
    (he : flattenEach? es = some ts) (hf : flattenEach? fs = some us)
    (hc : ∃ b, c.token = .closer b) (hc' : ∃ b, c'.token = .closer b)
    (h : ts ++ c :: r = us ++ c' :: r') : es = fs ∧ c = c' ∧ r = r' := by
  match es, fs with
  | [], [] =>
    cases he; cases hf
    exact ⟨rfl, List.cons.inj h⟩
  | [], f :: fs =>
    cases he
    obtain ⟨vs, ws, hv, -, rfl⟩ := flattenEach?_cons_eq_some.mp hf
    obtain ⟨t, vs, rfl, hne⟩ := flatten?_eq_cons hv
    obtain ⟨b, hb⟩ := hc
    exact absurd ((List.cons.inj h).1 ▸ hb) (hne b)
  | e :: es, [] =>
    cases hf
    obtain ⟨vs, ws, hv, -, rfl⟩ := flattenEach?_cons_eq_some.mp he
    obtain ⟨t, vs, rfl, hne⟩ := flatten?_eq_cons hv
    obtain ⟨b, hb⟩ := hc'
    exact absurd ((List.cons.inj h).1 ▸ hb) (hne b)
  | e :: es, f :: fs =>
    obtain ⟨vs, ws, hv, hw, rfl⟩ := flattenEach?_cons_eq_some.mp he
    obtain ⟨vs', ws', hv', hw', rfl⟩ := flattenEach?_cons_eq_some.mp hf
    simp only [List.append_assoc] at h
    obtain ⟨rfl, h⟩ := eq_of_flatten?_append hv hv' h
    obtain ⟨rfl, h⟩ := eq_of_flattenEach?_append hw hw' hc hc' h
    exact ⟨rfl, h⟩

end

/-- The tokens and their places determine the expression. -/
theorem flatten?_injective {e f : Expr} {ts : List PlacedToken} (he : e.flatten? = some ts)
    (hf : f.flatten? = some ts) : e = f := by
  have h : ts ++ [] = ts ++ [] := rfl
  exact (eq_of_flatten?_append he hf h).1

end Expr

end LineLisp
