/-
  LineLisp.Proofs.Expr.Moving — reading a line that starts elsewhere.

  The reader takes the same steps on tokens at moved places (`Reader.step_move`). So a line
  that starts elsewhere is read as the same expression with all its spans moved, or it has
  the same error with its span moved, and the names it leaves are the same
  (`Source.read_move`). The moved expression has the same canonical text in its line
  (`Source.print_move`).
-/

import LineLisp.Proofs.Expr.RoundTrip
import LineLisp.Proofs.Lexeme.Moving

namespace LineLisp

variable (d : Int)

/-! ## Expressions -/

namespace Expr

mutual

def move (d : Int) : Expr → Expr
  | atom span a => atom (span.move d) a
  | group span b items => group (span.move d) b (moveEach d items)

def moveEach (d : Int) : List Expr → List Expr
  | [] => []
  | e :: es => e.move d :: moveEach d es

end

theorem moveEach_eq_map (es : List Expr) : moveEach d es = es.map (move d) := by
  induction es with
  | nil => rfl
  | cons e es ih => rw [moveEach, ih, List.map_cons]

@[simp] theorem span_move (e : Expr) : (e.move d).span = e.span.move d := by
  cases e <;> rfl

mutual

/-- A moved expression matches, whatever is asked of two spans of which one is the other
    moved. -/
theorem matched_move {L G : Span → Span → Prop} {e : Expr} (hL : ∀ n ∈ e.nodes, L n.span (n.span.move d))
    (hG : ∀ n ∈ e.nodes, G n.span (n.span.move d)) : e.Matched L G (e.move d) := by
  match e with
  | atom span a => exact .atom a (hL _ List.mem_cons_self)
  | group span b items =>
    obtain ⟨-, hL⟩ := List.forall_mem_cons.mp hL
    obtain ⟨hspan, hG⟩ := List.forall_mem_cons.mp hG
    exact .group b hspan (matched_moveEach hL hG)

theorem matched_moveEach {L G : Span → Span → Prop} {es : List Expr}
    (hL : ∀ n ∈ nodesEach es, L n.span (n.span.move d)) (hG : ∀ n ∈ nodesEach es, G n.span (n.span.move d)) :
    List.Forall₂ (Matched L G) es (moveEach d es) := by
  match es with
  | [] => exact .nil
  | e :: es =>
    obtain ⟨hLe, hLes⟩ := List.forall_mem_append.mp hL
    obtain ⟨hGe, hGes⟩ := List.forall_mem_append.mp hG
    exact .cons (matched_move hLe hGe) (matched_moveEach hLes hGes)

end

end Expr

/-! ## Reading -/

def OpenGroup.move (d : Int) (g : OpenGroup) : OpenGroup := ⟨g.opener.move d, g.bracket, g.items.map (Expr.move d)⟩

namespace Reader

def Progress.move (d : Int) : Progress → Progress
  | pending groups => pending (groups.map (OpenGroup.move d))
  | complete e => complete (e.move d)

variable (line : Span) (groups : List OpenGroup)

theorem place_move (e : Expr) : place (e.move d) (groups.map (OpenGroup.move d)) = (place e groups).move d := by
  cases groups <;> rfl

theorem atHead_move : atHead (groups.map (OpenGroup.move d)) = atHead groups := by
  rcases groups with _ | ⟨⟨opener, b, items⟩, outer⟩
  · rfl
  · cases b <;> cases items <;> rfl

/-- A step at moved places is the same step, or fails for the same reason. -/
theorem step_move (t : PlacedToken) : step (line.move d) (groups.map (OpenGroup.move d)) (t.move d) =
    ((step line groups t).map (Progress.move d)).mapError (ReadError.move d) := by
  obtain ⟨t, span⟩ := t
  cases t with
  | opener b =>
    simp only [step, PlacedToken.move, List.length_map]
    by_cases hroom : groups.length ≥ maxOpen
    · rw [if_pos hroom, if_pos hroom]
      rfl
    · rw [if_neg hroom, if_neg hroom]
      rfl
  | closer b =>
    cases groups with
    | nil => rfl
    | cons g outer =>
      simp only [step, PlacedToken.move, List.map_cons, OpenGroup.move]
      by_cases hb : g.bracket = b
      · have hgroup : Expr.group ((g.opener.move d).join (span.move d)) b (g.items.map (Expr.move d)).reverse
            = (Expr.group (g.opener.join span) b g.items.reverse).move d := by
          rw [Expr.move, Expr.moveEach_eq_map, List.map_reverse, Span.move_join]
        rw [if_pos hb, if_pos hb, hgroup, place_move]
        rfl
      · rw [if_neg hb, if_neg hb]
        rfl
  | operator op =>
    simp only [step, PlacedToken.move, atHead_move]
    by_cases hhead : atHead groups = true
    · rw [if_pos hhead, if_pos hhead]
      exact congrArg Except.ok (place_move d groups (.atom span (.operator op)))
    · rw [if_neg hhead, if_neg hhead]
      rfl
  | integer n | string | keyword name | symbol name | bool b | nil =>
    exact congrArg Except.ok (place_move d groups (.atom span _))

theorem endError_move (eof : Span) : endError (eof.move d) (groups.map (OpenGroup.move d)) = (endError eof groups).move d := by
  cases groups <;> rfl

theorem finish_move (e : Expr) (names : NameTable) (xs : List Lexeme) : finish (e.move d) names (xs.map (Lexeme.move d)) =
    (((finish e names xs).1.map (Expr.move d)).mapError (ReadFailure.move d), (finish e names xs).2) := by
  cases xs with
  | nil => rfl
  | cons x xs =>
    have hx := x.token_move d names
    rw [List.map_cons, finish, finish, hx, Lexeme.span_move]
    cases x.token names <;> rfl

theorem readFrom_move (eof : Span) (names : NameTable) (xs : List Lexeme) :
    readFrom (line.move d) (eof.move d) names (groups.map (OpenGroup.move d)) (xs.map (Lexeme.move d)) =
      (((readFrom line eof names groups xs).1.map (Expr.move d)).mapError (ReadFailure.move d),
        (readFrom line eof names groups xs).2) := by
  induction xs generalizing names groups with
  | nil =>
    rw [List.map_nil, readFrom, readFrom, endError_move]
    rfl
  | cons x xs ih =>
    have hx := x.token_move d names
    rw [List.map_cons, readFrom, readFrom, hx, Lexeme.span_move]
    cases x.token names with
    | error f => rfl
    | ok r =>
      have hstep := step_move d line groups ⟨r.1, x.span⟩
      simp only [Except.mapError]
      rw [PlacedToken.move] at hstep
      rw [hstep]
      cases step line groups ⟨r.1, x.span⟩ with
      | error e => rfl
      | ok p =>
        cases p with
        | pending groups => exact ih groups r.2
        | complete e => exact finish_move d e r.2 xs

/-- Which name has no stack for its record does not depend on places. -/
theorem unrecorded?_move (cost : Nat) (names : NameTable) (xs : List Lexeme) :
    unrecorded? cost (line.move d) names (groups.map (OpenGroup.move d)) (xs.map (Lexeme.move d)) =
      unrecorded? cost line names groups xs := by
  induction xs generalizing names groups with
  | nil => rfl
  | cons x xs ih =>
    have hx := x.token_move d names
    rw [List.map_cons, unrecorded?, unrecorded?, hx, Lexeme.span_move]
    cases x.token names with
    | error f => rfl
    | ok r =>
      have hstep := step_move d line groups ⟨r.1, x.span⟩
      simp only [Except.mapError, List.length_map]
      rw [PlacedToken.move] at hstep
      rw [hstep]
      cases step line groups ⟨r.1, x.span⟩ with
      | error e => rfl
      | ok p =>
        cases p with
        | pending groups =>
          simp only [Except.map, Except.mapError, Progress.move, ih]
        | complete e => rfl

end Reader

namespace Source

/-- A line is read alike wherever it starts. -/
theorem read_move (src : Source) (names : NameTable) : (src.move d).read names =
    (((src.read names).1.map (Expr.move d)).mapError (ReadFailure.move d), (src.read names).2) := by
  rw [read, read, span_move, eof_move, lexemes_move]
  exact Reader.readFrom_move d src.span [] src.eof names src.lexemes

theorem unrecorded?_move (src : Source) (cost : Nat) (names : NameTable) :
    (src.move d).unrecorded? cost names = src.unrecorded? cost names := by
  rw [unrecorded?, unrecorded?, span_move, lexemes_move]
  exact Reader.unrecorded?_move d src.span [] cost names src.lexemes

theorem sameText_move {src : Source} {span : Span} (h : src.span.contains span = true) :
    src.SameText (src.move d) span (span.move d) :=
  ⟨h, contains_move d h, (slice_move d src span).symm⟩

/-- An expression whose nodes are in the line has the same canonical text when it is moved
    with the line. -/
theorem print_move {src : Source} {e : Expr} (h : ∀ n ∈ e.nodes, src.span.contains n.span = true) :
    (e.move d).print (src.move d) = e.print src :=
  Expr.print_eq_of_sameTree (Expr.matched_move d (fun n hn => sameText_move d (h n hn)) fun _ _ => trivial)

end Source

end LineLisp
