/-
  LineLisp.Proofs.Expr.Matching — expressions that differ in their spans only.

  Two expressions match if they have the same shape and the same atoms at the same
  places (`Expr.Matched`); what holds between the spans of atoms and between those of
  groups is a parameter. The reader takes the same steps on tokens that differ in their
  spans only (`step_matched`), so it reads them as matching expressions
  (`readTokens?_matched`).
-/

import Mathlib.Data.List.Forall2
import LineLisp.Proofs.Expr.Acceptance

namespace LineLisp

/-- The same shape and the same atoms. Corresponding atoms have spans in `L`,
    corresponding groups in `G`. -/
inductive Expr.Matched (L G : Span → Span → Prop) : Expr → Expr → Prop
  | atom {span span' : Span} (a : Atom) : L span span' → Matched L G (.atom span a) (.atom span' a)
  | group {span span' : Span} (b : Bracket) {items items' : List Expr} : G span span' →
      List.Forall₂ (Matched L G) items items' → Matched L G (.group span b items) (.group span' b items')

/-- No condition on two spans. -/
abbrev AnySpans : Span → Span → Prop := fun _ _ => True

/-- Two spans, each inside its line, with the same text. -/
structure Source.SameText (src src' : Source) (span span' : Span) : Prop where
  inside : src.span.contains span = true
  inside' : src'.span.contains span' = true
  slice : src.slice span = src'.slice span'

/-- The same tree with the same text at corresponding atoms. -/
abbrev Expr.SameTree (src src' : Source) : Expr → Expr → Prop := Matched (src.SameText src') AnySpans

namespace Reader

variable {L : Span → Span → Prop}

/-- The same token, at spans in `L`. -/
def SameToken (L : Span → Span → Prop) (t t' : PlacedToken) : Prop := t.token = t'.token ∧ L t.span t'.span

structure OpenGroup.Matched (L : Span → Span → Prop) (g g' : OpenGroup) : Prop where
  bracket : g.bracket = g'.bracket
  items : List.Forall₂ (Expr.Matched L AnySpans) g.items g'.items

inductive Progress.Matched (L : Span → Span → Prop) : Progress → Progress → Prop
  | pending {gs gs' : List OpenGroup} : List.Forall₂ (OpenGroup.Matched L) gs gs' →
      Matched L (.pending gs) (.pending gs')
  | complete {e e' : Expr} : e.Matched L AnySpans e' → Matched L (.complete e) (.complete e')

variable {gs gs' : List OpenGroup}

theorem place_matched {e e' : Expr} (he : e.Matched L AnySpans e') (hg : List.Forall₂ (OpenGroup.Matched L) gs gs') :
    Progress.Matched L (place e gs) (place e' gs') := by
  cases hg with
  | nil => exact .complete he
  | cons h hrest => exact .pending (.cons ⟨h.bracket, .cons he h.items⟩ hrest)

theorem atHead_matched (hg : List.Forall₂ (OpenGroup.Matched L) gs gs') : atHead gs = atHead gs' := by
  cases hg with
  | nil => rfl
  | @cons g g' _ _ h _ =>
    obtain ⟨opener, b, items⟩ := g
    obtain ⟨opener', b', items'⟩ := g'
    obtain ⟨rfl, hi⟩ : b = b' ∧ List.Forall₂ (Expr.Matched L AnySpans) items items' := ⟨h.bracket, h.items⟩
    cases b with
    | square => rfl
    | round => cases hi <;> rfl

/-- A token that the reader takes it takes at any other span. -/
theorem step_matched {line line' : Span} {t t' : PlacedToken} {p : Progress} (ht : SameToken L t t')
    (hg : List.Forall₂ (OpenGroup.Matched L) gs gs') (h : step line gs t = .ok p) :
    ∃ p', step line' gs' t' = .ok p' ∧ Progress.Matched L p p' := by
  obtain ⟨tok, span⟩ := t
  obtain ⟨tok', span'⟩ := t'
  obtain ⟨rfl, hspan⟩ : tok = tok' ∧ L span span' := ht
  cases tok with
  | opener b =>
    simp only [step, hg.length_eq] at h ⊢
    split at h
    · cases h
    · rename_i hroom
      cases h
      rw [if_neg hroom]
      exact ⟨_, rfl, .pending (.cons ⟨rfl, .nil⟩ hg)⟩
  | closer b =>
    cases hg with
    | nil => cases h
    | @cons g g' _ _ hgg hrest =>
      simp only [step, hgg.bracket] at h ⊢
      split at h
      · rename_i hb
        cases h
        rw [if_pos hb]
        exact ⟨_, rfl, place_matched (.group b trivial (List.forall₂_reverse_iff.mpr hgg.items)) hrest⟩
      · cases h
  | operator op =>
    simp only [step, atHead_matched hg] at h ⊢
    split at h
    · rename_i hhead
      cases h
      rw [if_pos hhead]
      exact ⟨_, rfl, place_matched (.atom _ hspan) hg⟩
    · cases h
  | integer n | string | keyword name | symbol name | bool b | nil =>
    cases h
    exact ⟨_, rfl, place_matched (.atom _ hspan) hg⟩

theorem readTokens?_matched {line line' : Span} {ts ts' : List PlacedToken} {e : Expr}
    (ht : List.Forall₂ (SameToken L) ts ts') (hg : List.Forall₂ (OpenGroup.Matched L) gs gs')
    (h : readTokens? line gs ts = some e) : ∃ e', readTokens? line' gs' ts' = some e' ∧ e.Matched L AnySpans e' := by
  induction ht generalizing gs gs' with
  | nil => cases h
  | @cons t t' ts ts' htt hts ih =>
    obtain ⟨p, hstep, hp⟩ := resume?_of_readTokens? line h
    obtain ⟨p', hstep', hpp⟩ := @step_matched _ _ _ line line' _ _ _ htt hg hstep
    rw [readTokens?_cons line' hstep']
    cases hpp with
    | pending hgg => exact ih hgg hp
    | @complete e₀ e₀' he =>
      rw [resume?] at hp ⊢
      cases hts with
      | nil => cases hp; exact ⟨e₀', rfl, he⟩
      | cons _ _ => cases hp

end Reader

end LineLisp
