/-
  LineLisp.Proofs.Expr.Places — corresponding places in expressions of one shape.

  Two nodes correspond if they have the same place among the nodes of their expressions
  (`Expr.SamePlace`); in matching expressions corresponding nodes match
  (`Matched.at_places`). A span says which node it belongs to: each node of what a line
  is read as begins at a token of its own, so no two nodes have the same span
  (`nodup_spans`).
-/

import LineLisp.Proofs.Expr.Matching

namespace LineLisp.Expr

variable {L G S : Span → Span → Prop}

theorem span_of_matched {e e' : Expr} (h : e.Matched L G e') (hL : ∀ s s', L s s' → S s s')
    (hG : ∀ s s', G s s' → S s s') : S e.span e'.span := by
  cases h with
  | atom a h => exact hL _ _ h
  | group b h _ => exact hG _ _ h

/-! ## Corresponding nodes -/

/-- The spans of two nodes that have the same place in their expressions. -/
def SamePlace (e e' : Expr) (span span' : Span) : Prop :=
  ∃ p ∈ e.nodes.zip e'.nodes, p.1.span = span ∧ p.2.span = span'

theorem samePlace_root (e e' : Expr) : SamePlace e e' e.span e'.span := by
  cases e <;> cases e' <;> exact ⟨_, List.mem_cons_self, rfl, rfl⟩

mutual

theorem length_nodes_of_matched {e e' : Expr} (h : e.Matched L G e') : e.nodes.length = e'.nodes.length := by
  match e with
  | atom span a => cases h with | atom _ _ => rfl
  | group span b items =>
    cases h with
    | group _ _ hi => rw [nodes, nodes, List.length_cons, List.length_cons, length_nodesEach_of_matched hi]

theorem length_nodesEach_of_matched {es es' : List Expr} (h : List.Forall₂ (Matched L G) es es') :
    (nodesEach es).length = (nodesEach es').length := by
  match es with
  | [] => cases h; rfl
  | e :: es =>
    cases h with
    | cons he hes =>
      rw [nodesEach, nodesEach, List.length_append, List.length_append, length_nodes_of_matched he,
        length_nodesEach_of_matched hes]

end

mutual

/-- What holds of the spans of corresponding nodes may be asked of matching ones. -/
theorem Matched.at_places {e e' : Expr} (h : e.Matched L G e')
    (hS : ∀ p ∈ e.nodes.zip e'.nodes, S p.1.span p.2.span) :
    e.Matched (fun s s' => L s s' ∧ S s s') (fun s s' => G s s' ∧ S s s') e' := by
  match e with
  | atom span a =>
    cases h with
    | atom _ hL => exact .atom a ⟨hL, hS _ List.mem_cons_self⟩
  | group span b items =>
    cases h with
    | group _ hG hi =>
      obtain ⟨hroot, hrest⟩ := List.forall_mem_cons.mp hS
      exact .group b ⟨hG, hroot⟩ (matchedEach_at_places hi hrest)

theorem matchedEach_at_places {es es' : List Expr} (h : List.Forall₂ (Matched L G) es es')
    (hS : ∀ p ∈ (nodesEach es).zip (nodesEach es'), S p.1.span p.2.span) :
    List.Forall₂ (Matched (fun s s' => L s s' ∧ S s s') (fun s s' => G s s' ∧ S s s')) es es' := by
  match es with
  | [] => cases h; exact .nil
  | e :: es =>
    cases h with
    | cons he hes =>
      rw [nodesEach, nodesEach, List.zip_append (length_nodes_of_matched he)] at hS
      obtain ⟨hhead, htail⟩ := List.forall_mem_append.mp hS
      exact .cons (he.at_places hhead) (matchedEach_at_places hes htail)

end

/-! ## A span belongs to one node -/

mutual

/-- Every node begins where one of the tokens does, a different one each. -/
theorem starts_nodes {e : Expr} {ts : List PlacedToken} (h : e.flatten? = some ts) :
    List.Sublist (e.nodes.map (·.span.lo)) (ts.map (·.span.lo)) := by
  match e with
  | atom span a =>
    obtain ⟨t, -, rfl⟩ := Option.map_eq_some_iff.mp h
    exact List.Sublist.refl [span.lo]
  | group span b items =>
    obtain ⟨us, hu, rfl⟩ := Option.map_eq_some_iff.mp h
    rw [nodes, List.map_cons, List.map_cons, List.map_append]
    exact ((starts_nodesEach hu).trans (List.sublist_append_left _ _)).cons_cons span.lo

theorem starts_nodesEach {es : List Expr} {ts : List PlacedToken} (h : flattenEach? es = some ts) :
    List.Sublist ((nodesEach es).map (·.span.lo)) (ts.map (·.span.lo)) := by
  match es with
  | [] => cases h; exact List.Sublist.refl []
  | e :: es =>
    obtain ⟨us, vs, hu, hv, rfl⟩ := flattenEach?_cons_eq_some.mp h
    rw [nodesEach, List.map_append, List.map_append]
    exact (starts_nodes hu).append (starts_nodesEach hv)

end

/-- No two nodes have the same span. -/
theorem nodup_spans {e : Expr} {ts : List PlacedToken} (h : e.flatten? = some ts)
    (hordered : ts.Pairwise PlacedToken.Before) (hnonempty : ∀ t ∈ ts, t.span.lo < t.span.hi) :
    (e.nodes.map Expr.span).Nodup := by
  have hlt : (ts.map (·.span.lo)).Pairwise (· < ·) := by
    rw [List.pairwise_map]
    exact hordered.imp_of_mem fun ht _ hb => Int.lt_of_lt_of_le (hnonempty _ ht) hb
  have hstarts : e.nodes.Pairwise fun n m => n.span.lo < m.span.lo :=
    List.pairwise_map.mp (hlt.sublist (starts_nodes h))
  exact List.pairwise_map.mpr (hstarts.imp fun hn he => Int.ne_of_lt hn (congrArg Span.lo he))

end LineLisp.Expr
