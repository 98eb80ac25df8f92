/-
  LineLisp.Proofs.Expr.Fragments — the nodes of an expression in its line.

  The tokens of a node stand together among the tokens of the expression
  (`exists_segment`), from where the node begins to where it ends (`flatten?_ends`). If
  the tokens of the expression are a sentence, so are those of each node, an operator
  excepted (`sentence_of_mem_nodes`).
-/

import Mathlib.Data.List.Infix
import LineLisp.Proofs.Expr.RoundTrip
import LineLisp.Proofs.Lexeme.Joining

namespace LineLisp

/-! ## Sentences -/

namespace Grammar

theorem Sentence.mono {depth depth' : Nat} {ss : List Token} (h : Sentence depth ss) (hd : depth ≤ depth') :
    Sentence depth' ss := by
  induction h generalizing depth' with
  | atom ha => exact .atom ha
  | @group depth b head parts hh _ ih =>
    obtain ⟨m, rfl⟩ : ∃ m, depth' = m + 1 := ⟨depth' - 1, by omega⟩
    exact .group hh fun p hp => ih p hp (by omega)

/-- A sentence starts with a token that neither closes nor operates. -/
theorem Sentence.eq_cons {depth : Nat} {ss : List Token} (h : Sentence depth ss) :
    ∃ t us, ss = t :: us ∧ (∀ b, t ≠ .closer b) ∧ ∀ op, t ≠ .operator op := by
  cases h with
  | @atom _ t ha =>
    refine ⟨t, [], rfl, fun b hb => ?_, fun op hop => ?_⟩
    · rw [hb] at ha
      cases ha
    · rw [hop] at ha
      cases ha
  | @group _ b head parts _ _ => exact ⟨.opener b, _, rfl, nofun, nofun⟩

end Grammar

namespace Expr

open Grammar

def isOperator : Expr → Bool
  | atom _ (.operator _) => true
  | _ => false

/-! ## The tokens of a node -/

mutual

/-- The tokens of a node stand together. -/
theorem exists_segment {e n : Expr} {ts : List PlacedToken} (h : e.flatten? = some ts) (hn : n ∈ e.nodes) :
    ∃ us, n.flatten? = some us ∧ us <:+: ts := by
  match e with
  | atom span a =>
    rw [nodes, List.mem_singleton] at hn
    subst hn
    exact ⟨ts, h, List.infix_refl ts⟩
  | group span b items =>
    rcases List.mem_cons.mp hn with rfl | hn
    · exact ⟨ts, h, List.infix_refl ts⟩
    · obtain ⟨vs, hv, rfl⟩ := Option.map_eq_some_iff.mp h
      obtain ⟨us, hu, hin⟩ := exists_segmentEach hv hn
      exact ⟨us, hu, hin.trans ⟨[b.first span], [b.last span], by simp⟩⟩

theorem exists_segmentEach {es : List Expr} {n : Expr} {ts : List PlacedToken} (h : flattenEach? es = some ts)
    (hn : n ∈ nodesEach es) : ∃ us, n.flatten? = some us ∧ us <:+: ts := by
  match es with
  | [] => cases hn
  | e :: es =>
    obtain ⟨vs, ws, hv, hw, rfl⟩ := flattenEach?_cons_eq_some.mp h
    rcases List.mem_append.mp hn with hn | hn
    · obtain ⟨us, hu, hin⟩ := exists_segment hv hn
      exact ⟨us, hu, hin.trans (List.prefix_append vs ws).isInfix⟩
    · obtain ⟨us, hu, hin⟩ := exists_segmentEach hw hn
      exact ⟨us, hu, hin.trans (List.suffix_append vs ws).isInfix⟩

end

/-- The first token of an expression begins where it does, and the last ends where it does. -/
theorem flatten?_ends {e : Expr} {ts : List PlacedToken} (h : e.flatten? = some ts) :
    ∃ first last, first ∈ ts.head? ∧ last ∈ ts.getLast? ∧ first.span.lo = e.span.lo ∧ last.span.hi = e.span.hi := by
  cases e with
  | atom span a =>
    obtain ⟨t, -, rfl⟩ := Option.map_eq_some_iff.mp h
    exact ⟨⟨t, span⟩, ⟨t, span⟩, rfl, rfl, rfl, rfl⟩
  | group span b items =>
    obtain ⟨us, -, rfl⟩ := Option.map_eq_some_iff.mp h
    refine ⟨b.first span, b.last span, rfl, ?_, rfl, ?_⟩
    · rw [← List.cons_append, List.getLast?_append]
      rfl
    · show span.hi - 1 + 1 = span.hi
      omega

/-! ## The tokens of a node are a sentence -/

/-- Only an operator is written with an operator first. -/
theorem isOperator_of_flatten? {e : Expr} {t : PlacedToken} {ts : List PlacedToken} {op : Operator}
    (h : e.flatten? = some (t :: ts)) (ht : t.token = .operator op) : e.isOperator = true ∧ ts = [] := by
  cases e with
  | atom span a =>
    obtain ⟨k, hk, hts⟩ := Option.map_eq_some_iff.mp h
    obtain ⟨rfl, rfl⟩ := List.cons.inj hts
    obtain rfl : k = .operator op := ht
    refine ⟨?_, rfl⟩
    cases a <;> first | rfl | cases hk
  | group span b items =>
    obtain ⟨us, -, hts⟩ := Option.map_eq_some_iff.mp h
    obtain ⟨rfl, -⟩ := List.cons.inj hts
    cases ht

theorem flatten?_operator {e : Expr} {ts : List PlacedToken} (h : e.flatten? = some ts) (hop : e.isOperator = true) :
    ∃ op span, ts = [⟨.operator op, span⟩] := by
  unfold isOperator at hop
  split at hop
  · cases h
    exact ⟨_, _, rfl⟩
  · cases hop

/-- The operator that heads a list, and the items after it. -/
theorem tail_of_head {es : List Expr} {vs : List PlacedToken} {op : Operator} {rest : List Token} {b : Bracket}
    {r : List Token} (he : flattenEach? es = some vs) (h : vs.map (·.token) ++ .closer b :: r = .operator op :: rest) :
    ∃ e es' ws, es = e :: es' ∧ e.isOperator = true ∧ e.nodes = [e] ∧ flattenEach? es' = some ws ∧
      vs.map (·.token) = .operator op :: ws.map (·.token) := by
  cases es with
  | nil =>
    cases he
    cases h
  | cons e es =>
    obtain ⟨us, ws, hu, hw, rfl⟩ := flattenEach?_cons_eq_some.mp he
    obtain ⟨t, us, rfl, -⟩ := flatten?_eq_cons hu
    have ht : t.token = .operator op := (List.cons.inj h).1
    obtain ⟨hop, rfl⟩ := isOperator_of_flatten? hu ht
    refine ⟨e, es, ws, rfl, hop, ?_, hw, by simp [ht]⟩
    cases e with
    | atom span a => rfl
    | group span b items => cases hop

/-- Every node of the expressions is written as a sentence, an operator excepted. -/
def WrittenAs (depth : Nat) (n : Expr) : Prop :=
  n.isOperator = false → ∃ us, n.flatten? = some us ∧ Sentence depth (us.map (·.token))

mutual

/-- An expression whose tokens begin as a sentence does has just the tokens of that
    sentence, and its nodes are written as sentences. -/
theorem sentence_nodes {e : Expr} {ts : List PlacedToken} {ss r r' : List Token} {depth : Nat}
    (he : e.flatten? = some ts) (hop : e.isOperator = false) (hs : Sentence depth ss)
    (h : ts.map (·.token) ++ r = ss ++ r') :
    ts.map (·.token) = ss ∧ r = r' ∧ ∀ n ∈ e.nodes, n.WrittenAs depth := by
  match e with
  | atom span a =>
    obtain ⟨t, ht, rfl⟩ := Option.map_eq_some_iff.mp he
    have hbracket := Atom.isBracket_token? ht
    cases hs with
    | @atom _ t' ha =>
      obtain ⟨rfl, hr⟩ := List.cons.inj h
      refine ⟨rfl, hr, fun n hn _ => ?_⟩
      rw [nodes, List.mem_singleton] at hn
      subst hn
      exact ⟨_, he, .atom ha⟩
    | group _ _ =>
      obtain ⟨rfl, -⟩ := List.cons.inj h
      cases hbracket
  | group span b items =>
    obtain ⟨vs, hv, rfl⟩ := Option.map_eq_some_iff.mp he
    cases hs with
    | atom ha =>
      obtain ⟨rfl, -⟩ := List.cons.inj h
      cases ha
    | @group depth b' head parts hh hp =>
      simp only [List.map_cons, List.map_append, List.map_nil, List.cons_append, List.append_assoc,
        List.nil_append] at h
      obtain ⟨hb, h⟩ := List.cons.inj h
      obtain rfl : b = b' := Token.opener.inj hb
      obtain ⟨hinside, hlast, hnodes⟩ : vs.map (·.token) = head ++ parts.flatten ∧
          Token.closer b :: r = .closer b :: r' ∧ ∀ n ∈ nodesEach items, n.WrittenAs depth := by
        cases hh with
        | none => exact sentence_nodesEach hv hp h
        | operator op =>
          obtain ⟨e, es, ws, rfl, hop, hself, hw, hvw⟩ := tail_of_head hv h
          rw [hvw] at h ⊢
          obtain ⟨hws, hlast, hnodes⟩ := sentence_nodesEach hw hp (List.cons.inj h).2
          refine ⟨by rw [hws]; rfl, hlast, fun n hn => ?_⟩
          rw [nodesEach, hself] at hn
          rcases List.mem_cons.mp hn with rfl | hn
          · intro hno
            rw [hop] at hno
            cases hno
          · exact hnodes n hn
      have hself : (b.first span :: (vs ++ [b.last span])).map (·.token)
          = .opener b :: (head ++ parts.flatten ++ [.closer b]) := by
        rw [List.map_cons, List.map_append, hinside]
        rfl
      refine ⟨hself, (List.cons.inj hlast).2, fun n hn => ?_⟩
      rcases List.mem_cons.mp hn with rfl | hn
      · exact fun _ => ⟨_, he, hself ▸ .group hh hp⟩
      · intro hno
        obtain ⟨us, hu, hsu⟩ := hnodes n hn hno
        exact ⟨us, hu, hsu.mono (Nat.le_succ depth)⟩

/-- The same of sentences one after another, up to a closing bracket. -/
theorem sentence_nodesEach {es : List Expr} {vs : List PlacedToken} {r r' : List Token} {parts : List (List Token)}
    {b b' : Bracket} {depth : Nat} (he : flattenEach? es = some vs) (hs : ∀ p ∈ parts, Sentence depth p)
    (h : vs.map (·.token) ++ .closer b :: r = parts.flatten ++ .closer b' :: r') :
    vs.map (·.token) = parts.flatten ∧ Token.closer b :: r = .closer b' :: r' ∧
      ∀ n ∈ nodesEach es, n.WrittenAs depth := by
  match es, parts with
  | [], [] =>
    cases he
    exact ⟨rfl, h, fun n hn => nomatch hn⟩
  | [], p :: parts =>
    cases he
    obtain ⟨t, us, hp, hclose, -⟩ := (hs p List.mem_cons_self).eq_cons
    rw [hp] at h
    exact absurd (List.cons.inj h).1.symm (hclose b)
  | e :: es, [] =>
    obtain ⟨us, ws, hu, -, rfl⟩ := flattenEach?_cons_eq_some.mp he
    obtain ⟨t, us, rfl, hclose⟩ := flatten?_eq_cons hu
    exact absurd (List.cons.inj h).1 (hclose b')
  | e :: es, p :: parts =>
    obtain ⟨us, ws, hu, hw, rfl⟩ := flattenEach?_cons_eq_some.mp he
    obtain ⟨hp, hparts⟩ := List.forall_mem_cons.mp hs
    have hop : e.isOperator = false := by
      by_contra hop
      obtain ⟨op, span, rfl⟩ := flatten?_operator hu (Bool.not_eq_false _ ▸ hop)
      obtain ⟨t, rest, rfl, -, hne⟩ := hp.eq_cons
      exact hne op (List.cons.inj h).1.symm
    rw [List.map_append, List.append_assoc, List.flatten_cons, List.append_assoc] at h
    obtain ⟨hus, h, hnodes⟩ := sentence_nodes hu hop hp h
    obtain ⟨hws, hlast, hnodes'⟩ := sentence_nodesEach hw hparts h
    refine ⟨by rw [List.map_append, hus, hws, List.flatten_cons], hlast, fun n hn => ?_⟩
    rcases List.mem_append.mp hn with hn | hn
    · exact hnodes n hn
    · exact hnodes' n hn

end

theorem sentence_of_mem_nodes {e n : Expr} {ts : List PlacedToken} {depth : Nat} (he : e.flatten? = some ts)
    (hs : Sentence depth (ts.map (·.token))) (hn : n ∈ e.nodes) : n.WrittenAs depth := by
  have hop : e.isOperator = false := by
    by_contra hop
    obtain ⟨op, span, rfl⟩ := flatten?_operator he (Bool.not_eq_false _ ▸ hop)
    obtain ⟨t, us, hts, -, hne⟩ := hs.eq_cons
    exact hne op (List.cons.inj hts).1.symm
  exact (@sentence_nodes e ts _ [] [] depth he hop hs rfl).2.2 n hn

end Expr

end LineLisp
