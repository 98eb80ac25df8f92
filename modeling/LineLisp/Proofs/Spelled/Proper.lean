/-
  LineLisp.Proofs.Spelled.Proper — what a line is read as has no fault in it.

  An expression is proper if no operator stands where it would be evaluated and every
  string has room for its quotes. The reader makes proper expressions only
  (`read_proper`): it takes an operator as the first item of a list and nowhere else, and
  the first item of a list is looked at and never evaluated; nor is it when the list is
  the bindings of a `let`, where it is taken for a name. So evaluation cannot end in a
  fault (`sound_of_proper`), and a line has a fault only if it has a number too long to
  convert (`run_fault`).
-/

import LineLisp.Proofs.Lexeme.Cutting
import LineLisp.Proofs.Lexeme.Tokens
import LineLisp.Proofs.Spelled.Eval
import LineLisp.Proofs.Spelled.Reading

namespace LineLisp.Spelled

inductive Proper : Expr → Prop
  | atom {span : Span} {a : Atom} : (∀ op, a ≠ .operator op) → (a = .string → span.lo + 1 ≤ span.hi - 1) →
      Proper (.atom span a)
  | vector {span : Span} {items : List Expr} : (∀ e ∈ items, Proper e) → Proper (.group span .square items)
  | list {span : Span} {items : List Expr} : (∀ e ∈ items.tail, Proper e) → Proper (.group span .round items)

/-! ## Reading -/

/-- The items so far, the first of a list excepted, are proper. -/
structure OpenGroup.Proper (g : OpenGroup) : Prop where
  later : ∀ e ∈ g.items.dropLast, Spelled.Proper e
  vector : g.bracket = .square → ∀ e ∈ g.items, Spelled.Proper e

inductive Progress.Proper : Progress → Prop
  | pending {groups : List OpenGroup} : (∀ g ∈ groups, g.Proper) → Proper (.pending groups)
  | complete {e : Expr} : Spelled.Proper e → Proper (.complete e)

variable {groups : List OpenGroup}

theorem place_proper {e : Expr} (he : Proper e) (hg : ∀ g ∈ groups, g.Proper) : (place e groups).Proper := by
  cases groups with
  | nil => exact .complete he
  | cons g outer =>
    obtain ⟨hg, houter⟩ := List.forall_mem_cons.mp hg
    refine .pending (List.forall_mem_cons.mpr ⟨⟨fun x hx => ?_, fun hb x hx => ?_⟩, houter⟩)
    · cases hi : g.items with
      | nil => rw [hi] at hx; cases hx
      | cons y ys =>
        rw [hi, List.dropLast_cons_cons] at hx
        rcases List.mem_cons.mp hx with rfl | hx
        · exact he
        · exact hg.later x (hi ▸ hx)
    · rcases List.mem_cons.mp hx with rfl | hx
      · exact he
      · exact hg.vector hb x hx

/-- An operator is taken as the first item of a list only, where it may stand. -/
theorem place_operator_proper {span : Span} {op : Operator} (hhead : atHead groups = true)
    (hg : ∀ g ∈ groups, g.Proper) : (place (.atom span (.operator op)) groups).Proper := by
  rcases groups with _ | ⟨⟨opener, b, items⟩, outer⟩
  · cases hhead
  · cases b <;> cases items <;> simp only [atHead, Bool.false_eq_true] at hhead
    obtain ⟨-, houter⟩ := List.forall_mem_cons.mp hg
    refine .pending (List.forall_mem_cons.mpr ⟨⟨fun x hx => absurd hx List.not_mem_nil, fun hb => ?_⟩, houter⟩)
    cases hb

theorem opened_proper (span : Span) (b : Bracket) : (OpenGroup.mk span b []).Proper :=
  ⟨fun _ hx => absurd hx List.not_mem_nil, fun _ _ hx => absurd hx List.not_mem_nil⟩

/-- A group that is closed is proper. -/
theorem group_proper {g : OpenGroup} (hg : g.Proper) (span : Span) :
    Proper (.group span g.bracket g.items.reverse) := by
  cases hb : g.bracket with
  | square => exact .vector fun e he => hg.vector hb e (List.mem_reverse.mp he)
  | round =>
    refine .list fun e he => hg.later e ?_
    rw [List.tail_reverse] at he
    exact List.mem_reverse.mp he

theorem step_proper {line span : Span} {t : Token} {p : Progress}
    (ht : t = .atom .string → span.lo + 1 ≤ span.hi - 1) (hg : ∀ g ∈ groups, g.Proper)
    (h : step line groups span t = .ok p) : p.Proper := by
  cases t with
  | opener b =>
    simp only [step] at h
    split at h
    · cases h
    · cases h
      exact .pending (List.forall_mem_cons.mpr ⟨opened_proper span b, hg⟩)
  | closer b =>
    cases groups with
    | nil => cases h
    | cons g outer =>
      obtain ⟨hgg, houter⟩ := List.forall_mem_cons.mp hg
      simp only [step] at h
      split at h
      · rename_i hb
        cases h
        exact place_proper (hb ▸ group_proper hgg _) houter
      · cases h
  | atom a =>
    by_cases hop : ∃ op, a = .operator op
    · obtain ⟨op, rfl⟩ := hop
      simp only [step] at h
      split at h
      · rename_i hhead
        cases h
        exact place_operator_proper hhead hg
      · cases h
    · have hop : ∀ op, a ≠ .operator op := fun op ha => hop ⟨op, ha⟩
      have ha : step line groups span (.atom a) = .ok (place (.atom span a) groups) := by
        cases a with
        | operator op => exact absurd rfl (hop op)
        | _ => rfl
      rw [ha] at h
      cases h
      exact place_proper (.atom hop fun hs => ht (by rw [hs])) hg

/-- Only a string is read as a string, for the reader with names reads it so too. -/
theorem shape_of_token_string {x : Lexeme} (h : token x = .ok (.atom .string)) : x.shape = .string := by
  have hx := x.token_spells .empty
  rw [h] at hx
  generalize hp : x.token .empty = p at hx
  cases hx with
  | @ok p _ hspells =>
    obtain ⟨tok, names⟩ := p
    obtain ⟨-, htok⟩ : _ ∧ tok.spelled? names = some (.atom .string) := hspells
    obtain rfl : tok = .string := by
      cases tok with
      | string => rfl
      | keyword name | symbol name => obtain ⟨_, -, hn⟩ := Option.map_eq_some_iff.mp htok; cases hn
      | _ => cases htok
    exact Lexeme.shape_of_token hp

theorem readFrom_proper {line eof : Span} {xs : List Lexeme} {e : Expr}
    (hxs : ∀ x ∈ xs, x.shape = .string → x.span.lo + 1 ≤ x.span.hi - 1) (hg : ∀ g ∈ groups, g.Proper)
    (h : readFrom line eof groups xs = .ok e) : Proper e := by
  induction xs generalizing groups with
  | nil => cases h
  | cons x xs ih =>
    obtain ⟨hx, hrest⟩ := List.forall_mem_cons.mp hxs
    unfold readFrom at h
    split at h
    · cases h
    · rename_i t ht
      have hstring : t = .atom .string → x.span.lo + 1 ≤ x.span.hi - 1 := by
        intro hs
        exact hx (shape_of_token_string (hs ▸ ht))
      split at h
      · cases h
      · rename_i groups' hstep
        cases step_proper hstring hg hstep with
        | pending hg' => exact ih hrest hg' h
      · rename_i e' hstep
        cases step_proper hstring hg hstep with
        | complete he' =>
          cases xs with
          | nil => cases h; exact he'
          | cons y ys => rw [finish] at h; split at h <;> cases h

theorem read_proper {src : Source} {e : Expr} (h : read src = .ok e) : Proper e := by
  refine readFrom_proper (fun x hx hs => ?_) (fun g hg => absurd hg List.not_mem_nil) h
  obtain ⟨hc, -, -⟩ := Source.cut_of_mem_lexemes hx
  have hlen : 2 ≤ x.text.length := Lexeme.two_le_length_of_cut (hs ▸ hc)
  simp only [Lexeme.span, Span.ofLength]
  omega

/-! ## Evaluation -/

def FaultFree {α : Type} (m : EvalM α) : Prop := ∀ r f, (m r).1 ≠ .error (.fault f)

section

variable {α β : Type}

theorem faultFree_pure (a : α) : FaultFree (pure a : EvalM α) := fun _ _ h => nomatch h

theorem faultFree_fail (span : Span) (cause : EvalCause) : FaultFree (fail span cause : EvalM α) :=
  fun _ _ h => nomatch h

theorem faultFree_bind {m : EvalM α} {g : α → EvalM β} (hm : FaultFree m) (hg : ∀ a, FaultFree (g a)) :
    FaultFree (m >>= g) := by
  intro r f
  have hr := hm r f
  rw [Eval.bind_run]
  generalize m r = x at hr
  obtain ⟨x, r'⟩ := x
  cases x with
  | error e =>
    intro he
    cases he
    exact hr rfl
  | ok a => exact hg a r' f

theorem faultFree_spend (budget cost : Nat) : FaultFree (spend budget cost) := by
  unfold spend
  split
  · exact fun _ _ h => nomatch h
  · exact faultFree_pure _

theorem faultFree_lookup (src : Source) (span : Span) (text : Glyphs) : FaultFree (lookup src span text) := by
  refine faultFree_bind (fun _ _ h => nomatch h) fun r => ?_
  split
  · exact faultFree_pure _
  · exact faultFree_fail _ _

theorem faultFree_nameOf (e : Expr) : FaultFree (nameOf e) := by
  unfold nameOf
  split
  · exact faultFree_pure _
  · exact faultFree_fail _ _

theorem faultFree_bindText (text : Glyphs) (v : Value) : FaultFree (bindText text v) := fun _ _ h => nomatch h

theorem faultFree_inFrame {m : EvalM α} (h : FaultFree m) : FaultFree (inFrame m) :=
  fun r f => h (r.push .empty) f

theorem faultFree_call (budget : Nat) (span : Span) (b : Builtin) (args : List Value) :
    FaultFree (call budget span b args) := by
  unfold call
  split
  · exact fun _ _ h => nomatch h
  · split
    · exact faultFree_pure _
    · exact faultFree_fail _ _

end

variable {src : Source}

theorem faultFree_atom {span : Span} {a : Atom} (hop : ∀ op, a ≠ .operator op)
    (hs : a = .string → span.lo + 1 ≤ span.hi - 1) : FaultFree (evalAtom src span a) := by
  cases a with
  | operator op => exact absurd rfl (hop op)
  | symbol text => exact faultFree_lookup src span text
  | string =>
    simp only [evalAtom, Span.of?, dif_pos (hs rfl)]
    exact faultFree_pure _
  | bool b | integer n | keyword text | nil => exact faultFree_pure _

theorem faultFree_evalEach {es : List Expr} (h : ∀ e ∈ es, ∀ budget, FaultFree (eval src budget e)) (budget : Nat) :
    FaultFree (evalEach src budget es) := by
  induction es with
  | nil => rw [evalEach]; exact faultFree_pure _
  | cons e es ih =>
    obtain ⟨he, hes⟩ := List.forall_mem_cons.mp h
    rw [evalEach]
    exact faultFree_bind (he budget) fun v => faultFree_bind (ih hes) fun vs => faultFree_pure _

/-- The first slot is taken for a name, so it need have no value. -/
theorem faultFree_evalBindings {slots : List Expr} (h : ∀ e ∈ slots.tail, ∀ budget, FaultFree (eval src budget e))
    (budget : Nat) : FaultFree (evalBindings src budget slots) := by
  match slots with
  | [] | [_] => exact fun _ _ h => nomatch h
  | target :: value :: rest =>
    rw [evalBindings]
    refine faultFree_bind (faultFree_nameOf target) fun text => ?_
    refine faultFree_bind (h value (by simp) budget) fun v => ?_
    refine faultFree_bind (faultFree_bindText text v) fun _ => ?_
    exact faultFree_evalBindings (fun e he => h e (List.mem_cons_of_mem value (List.mem_of_mem_tail he))) budget

/-- No fault in the expression itself nor, if it is a group, in its items as slots. -/
def Sound (src : Source) (e : Expr) : Prop :=
  (∀ budget, FaultFree (eval src budget e)) ∧
    ∀ span b slots, e = .group span b slots → ∀ budget, FaultFree (evalBindings src budget slots)

/-- What is evaluated of a list stands after its first item. -/
theorem faultFree_list {span : Span} {items : List Expr} (h : ∀ e ∈ items.tail, Sound src e) (budget : Nat) :
    FaultFree (eval src budget (.group span .round items)) := by
  have value : ∀ e ∈ items.tail, ∀ budget, FaultFree (eval src budget e) := fun e he => (h e he).1
  unfold eval
  split
  · exact faultFree_fail _ _
  · split
    · rename_i target body
      refine faultFree_bind (faultFree_spend _ _) fun left => faultFree_bind (faultFree_nameOf target) fun text => ?_
      refine faultFree_bind (value body (by simp) left) fun v => ?_
      exact faultFree_bind (faultFree_bindText text v) fun _ => faultFree_pure v
    · exact faultFree_fail _ _
  · split
    · rename_i condition yes no
      refine faultFree_bind (faultFree_spend _ _) fun left => ?_
      refine faultFree_bind (value condition (by simp) left) fun v => ?_
      split
      · exact value yes (by simp) left
      · exact value no (by simp) left
    · exact faultFree_fail _ _
  · split
    · rename_i at_ b slots body
      split
      · -- the slots are never evaluated as a group, so their own part of `Sound` is used
        refine faultFree_bind (faultFree_spend _ _) fun left => faultFree_inFrame ?_
        exact faultFree_bind ((h (.group at_ b slots) (by simp)).2 _ _ _ rfl left) fun _ => value body (by simp) left
      · exact faultFree_fail _ _
    · exact faultFree_fail _ _
    · exact faultFree_fail _ _
  · rename_i head text args
    refine faultFree_bind (faultFree_lookup src head text) fun v => ?_
    split
    · refine faultFree_bind (faultFree_spend _ _) fun left => ?_
      exact faultFree_bind (faultFree_evalEach value left) fun vs => faultFree_call left span _ vs
    · exact faultFree_fail _ _
  · exact faultFree_fail _ _

theorem sound_of_proper {e : Expr} (h : Proper e) : Sound src e := by
  induction h with
  | atom hop hs =>
    refine ⟨fun budget => ?_, fun _ _ _ he => nomatch he⟩
    rw [eval]
    exact faultFree_atom hop hs
  | vector _ ih =>
    refine ⟨fun budget => ?_, fun _ _ _ he budget => ?_⟩
    · rw [eval]
      refine faultFree_bind (faultFree_spend _ _) fun left => ?_
      exact faultFree_bind (faultFree_evalEach (fun e he => (ih e he).1) left) fun vs => faultFree_pure _
    · cases he
      exact faultFree_evalBindings (fun e he => (ih e (List.mem_of_mem_tail he)).1) budget
  | list _ ih =>
    refine ⟨faultFree_list ih, fun _ _ _ he budget => ?_⟩
    cases he
    exact faultFree_evalBindings (fun e he => (ih e he).1) budget

/-! ## Lines -/

/-- A line that has a fault has a number too long to convert. -/
theorem run_fault {src : Source} {r : Frames} {f : Fault} (h : (run r src).1 = .error (.fault f)) :
    ∃ n, f = .tooManyDigits n ∧ read src = .error (.tooManyDigits n) := by
  unfold run at h
  split at h
  · rename_i failure hread
    cases failure with
    | error e => cases h
    | tooManyDigits n => cases h; exact ⟨n, rfl, hread⟩
  · rename_i e hread
    have hsound : Sound src e := sound_of_proper (read_proper hread)
    have hfree := hsound.1 Session.stackBudget r
    unfold evalLine at h
    generalize eval src Session.stackBudget e r = x at h hfree
    obtain ⟨x, r'⟩ := x
    cases x with
    | ok v => cases h
    | error stop =>
      cases stop with
      | error e => cases h
      | exhausted => cases h
      | fault g => exact absurd rfl (hfree g)

end LineLisp.Spelled
