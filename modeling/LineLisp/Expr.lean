/-
  LineLisp.Expr — expressions: atoms and bracketed groups, each with the span it was
  read from. A round group is a list, a square one a vector. In the canonical text an
  atom is written as in its source, a group with its brackets and single spaces between
  the items.
-/

import LineLisp.Source
import LineLisp.Token

namespace LineLisp

inductive Atom
  | bool (b : Bool)
  | integer (n : Int)
  | keyword (name : Name)
  | nil
  /-- The contents stay in the source, between the ends of the span. -/
  | string
  | symbol (name : Name)
  | operator (op : Operator)
  /-- A kind that no text is read as; only expressions made by hand have it. -/
  | unknown (kind : String)
  deriving DecidableEq

inductive Expr
  | atom (span : Span) (a : Atom)
  | group (span : Span) (bracket : Bracket) (items : List Expr)

namespace Expr

def span : Expr → Span
  | atom span _ => span
  | group span _ _ => span

def children : Expr → List Expr
  | atom _ _ => []
  | group _ _ items => items

mutual

/-- The expression and all inside it, each before what it holds. -/
def nodes : Expr → List Expr
  | atom span a => [atom span a]
  | group span b items => group span b items :: nodesEach items

def nodesEach : List Expr → List Expr
  | [] => []
  | e :: es => e.nodes ++ nodesEach es

end

theorem nodesEach_eq_flatMap (es : List Expr) : nodesEach es = es.flatMap nodes := by
  induction es with
  | nil => simp [nodesEach]
  | cons e es ih => simp [nodesEach, ih]

theorem mem_nodes_self (e : Expr) : e ∈ e.nodes := by
  cases e <;> exact List.mem_cons_self

theorem mem_nodesEach {e n : Expr} {es : List Expr} (he : e ∈ es) (hn : n ∈ e.nodes) : n ∈ nodesEach es := by
  rw [nodesEach_eq_flatMap]
  exact List.mem_flatMap.mpr ⟨e, he, hn⟩

/-! ## The canonical text -/

mutual

def print (src : Source) : Expr → List Char
  | atom span _ => src.slice span
  | group _ b items => b.opener :: (printEach src items ++ [b.closer])

def printEach (src : Source) : List Expr → List Char
  | [] => []
  | e :: es => e.print src ++ printRest src es

/-- The items after the first, each with a space before it. -/
def printRest (src : Source) : List Expr → List Char
  | [] => []
  | e :: es => ' ' :: (e.print src ++ printRest src es)

end

end Expr

end LineLisp
