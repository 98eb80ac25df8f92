/-
  LineLisp.Proofs.Spelled.Refinement — evaluation with names does what evaluation with
  texts does.

  Two actions correspond from a table on (`Refines`) if, in every session whose table
  has grown from it and whose frames are spelled out by those on the other side, they
  end with the same failure or with related results, and leave such a session and such
  frames. What is related stays related as the table grows, so actions correspond when
  their steps do, one after another.

  Texts need no records. Where the action with names runs short of stack for one, nothing
  is said of the other's end, only that what is left can still be spelled out.
-/

import LineLisp.Proofs.Eval.Effect
import LineLisp.Proofs.Spelled.Builtins
import LineLisp.Proofs.Spelled.Eval

namespace LineLisp.Spelled

open LineLisp.Eval (bind_run RanShort)
open LineLisp.Expr (spelledEach?_cons_eq_some)

/-- A session and the frames on the other side, with the table grown from an earlier one. -/
structure Matches (t : NameTable) (s : Session) (r : Frames) : Prop where
  grows : t.Grows s.names
  frames : s.frames.Spells s.names r

namespace Matches

variable {t u : NameTable} {s s' : Session} {r r' : Frames}

theorem refl (h : Matches t s r) : Matches s.names s r := ⟨s.names.grows_refl, h.frames⟩

theorem trans (h : Matches t s r) (h' : Matches s.names s' r') : Matches t s' r' :=
  ⟨h.grows.trans h'.grows, h'.frames⟩

theorem setNames (h : Matches t s r) (hu : s.names.Grows u) : Matches s.names (s.setNames u) r :=
  ⟨hu, h.frames.of_grows hu⟩

end Matches

/-- The ends of two actions, the first from a session with the given table: the same failure
    or related results, with a session and frames that match. Or a record ran short of stack,
    and some frames match the session. -/
inductive SameEnd {α β : Type} (host : Host) (t : NameTable) (R : NameTable → α → β → Prop) :
    Except Stop α × Session → Except Stop β × Frames → Prop
  | same {x : Except Stop α} {y : Except Stop β} {s : Session} {r : Frames} :
      Matches t s r → SameOutcome (R s.names) x y → SameEnd host t R (x, s) (y, r)
  | short {x : Except Stop α} {y : Except Stop β} {s : Session} {r r' : Frames} :
      RanShort host x → Matches t s r' → SameEnd host t R (x, s) (y, r)

/-- The actions end alike, with results that the table left behind relates. -/
def Refines {α β : Type} (host : Host) (t : NameTable) (R : NameTable → α → β → Prop) (m : LineLisp.EvalM α)
    (p : EvalM β) : Prop :=
  ∀ s r, Matches t s r → SameEnd host s.names R (m s) (p r)

/-! ## How results are related -/

def SameName (t : NameTable) (name : Name) (text : Glyphs) : Prop := t.text? name = some text

def SameValue (t : NameTable) (v : LineLisp.Value) (w : Value) : Prop := v.spelled? t = some w

def SameValues (t : NameTable) (vs : List LineLisp.Value) (ws : List Value) : Prop :=
  LineLisp.Value.spelledEach? t vs = some ws

def Same {α : Type} (_ : NameTable) (a b : α) : Prop := a = b

/-! ## Operation by operation -/

section

variable {α β γ δ : Type} {host : Host} {t u : NameTable} {R : NameTable → α → β → Prop} {S : NameTable → γ → δ → Prop}

theorem refines_pure {a : α} {b : β} (h : ∀ u, t.Grows u → R u a b) : Refines host t R (pure a) (pure b) :=
  fun s _ hm => .same hm.refl (.ok (h s.names hm.grows))

theorem refines_throw (e : Stop) : Refines host t R (throw e) (throw e) := fun _ _ hm => .same hm.refl (.error e)

theorem refines_fail (span : Span) (cause : EvalCause) : Refines host t R (Eval.fail span cause) (fail span cause) :=
  refines_throw _

theorem refines_bind {m : LineLisp.EvalM α} {p : EvalM β} {f : α → LineLisp.EvalM γ} {g : β → EvalM δ}
    (hm : Refines host t R m p) (hf : ∀ u a b, t.Grows u → R u a b → Refines host u S (f a) (g b)) :
    Refines host t S (m >>= f) (p >>= g) := by
  intro s r hs
  have hend := hm s r hs
  rw [bind_run, bind_run]
  generalize m s = x, p r = y at hend
  cases hend with
  | @short x y s' r' r'' hshort hleft =>
    cases x with
    | ok a => exact absurd hshort Eval.not_ranShort_ok
    | error e => cases y <;> exact .short hshort.error hleft
  | @same x y s' r' hleft hout =>
    cases hout with
    | error e => exact .same hleft (.error e)
    | @ok a b h =>
      have hgrow : t.Grows s'.names := hs.grows.trans hleft.grows
      have hrest := hf s'.names a b hgrow h s' r' hleft.refl
      show SameEnd host s.names S (f a s') (g b r')
      generalize f a s' = x, g b r' = y at hrest
      cases hrest with
      | same hleft' hout' => exact .same (hleft.trans hleft') hout'
      | short hshort hleft' => exact .short hshort (hleft.trans hleft')

theorem refines_spend (budget cost : Nat) : Refines host t Same (Eval.spend budget cost) (spend budget cost) := by
  unfold Eval.spend spend
  split
  · exact refines_throw _
  · exact refines_pure fun _ _ => rfl

/-- The rest of an action, once its cost is paid. -/
theorem refines_spend_bind {budget cost : Nat} {f : Nat → LineLisp.EvalM α} {g : Nat → EvalM β}
    (hf : ∀ u b, t.Grows u → Refines host u R (f b) (g b)) :
    Refines host t R (Eval.spend budget cost >>= f) (spend budget cost >>= g) := by
  refine refines_bind (refines_spend budget cost) ?_
  intro u b b' hu hb
  have hb : b = b' := hb
  subst hb
  exact hf u b hu

theorem lookup_run (src : Source) (span : Span) (text : Glyphs) (r : Frames) :
    lookup src span text r = match r.get? text with
      | some v => (.ok v, r)
      | none => (.error (.error ⟨span, .unbound (src.slice span)⟩), r) := by
  show (match r.get? text with | some v => pure v | none => fail span (.unbound (src.slice span)) : EvalM Value) r = _
  cases r.get? text <;> rfl

theorem refines_lookup (src : Source) (span : Span) {name : Name} {text : Glyphs} (h : SameName t name text) :
    Refines host t SameValue (Eval.lookup src span name) (lookup src span text) := by
  intro s r hs
  have hg : SpelledOption s.names (s.get? name) (r.get? text) :=
    hs.frames.get? (NameTable.text?_of_grows hs.grows h)
  rw [Eval.lookup_run, lookup_run]
  generalize s.get? name = x, r.get? text = y at hg ⊢
  cases hg with
  | none => exact .same hs.refl (.error _)
  | some hv => exact .same hs.refl (.ok hv)

theorem refines_evalAtom (src : Source) (span : Span) {a : LineLisp.Atom} {b : Atom} (h : a.spelled? t = some b) :
    Refines host t SameValue (Eval.evalAtom src span a) (evalAtom src span b) := by
  cases a with
  | symbol name =>
    obtain ⟨text, hn, rfl⟩ := Option.map_eq_some_iff.mp h
    exact refines_lookup src span hn
  | keyword name =>
    obtain ⟨text, hn, rfl⟩ := Option.map_eq_some_iff.mp h
    refine refines_pure fun u hu => ?_
    rw [SameValue, LineLisp.Value.spelled?, NameTable.text?_of_grows hu hn]
    rfl
  | string =>
    cases h
    simp only [Eval.evalAtom, evalAtom]
    cases Span.of? (span.lo + 1) (span.hi - 1) with
    | some inner => exact refines_pure fun _ _ => rfl
    | none => exact refines_throw _
  | bool b | integer n | nil => cases h; exact refines_pure fun _ _ => rfl
  | operator op => cases h; exact refines_throw _
  | unknown kind => cases h

theorem refines_nameOf {e : LineLisp.Expr} {f : Expr} (h : e.spelled? t = some f) :
    Refines host t SameName (Eval.nameOf e) (nameOf f) := by
  cases e with
  | group span b items =>
    obtain ⟨items', -, rfl⟩ := Option.map_eq_some_iff.mp h
    exact refines_fail _ _
  | atom span a =>
    obtain ⟨a', ha, rfl⟩ := Option.map_eq_some_iff.mp h
    cases a with
    | symbol name =>
      obtain ⟨text, hn, rfl⟩ := Option.map_eq_some_iff.mp ha
      exact refines_pure fun u hu => NameTable.text?_of_grows hu hn
    | keyword name =>
      obtain ⟨text, -, rfl⟩ := Option.map_eq_some_iff.mp ha
      exact refines_fail _ _
    | unknown kind => cases ha
    | _ => cases ha; exact refines_fail _ _

theorem matches_bind {s : Session} {r : Frames} {name : Name} {text : Glyphs} {v : LineLisp.Value} {w : Value}
    (hs : Matches t s r) (hn : SameName t name text) (hv : SameValue t v w) :
    Matches s.names (s.bind name v) (r.insert text w) := by
  have hn : s.names.text? name = some text := NameTable.text?_of_grows hs.grows hn
  have hv : v.spelled? s.names = some w := LineLisp.Value.spelled?_of_grows hs.grows hv
  exact ⟨s.names.grows_refl, hs.frames.insert hn hv⟩

theorem refines_bindName {name : Name} {text : Glyphs} {v : LineLisp.Value} {w : Value} (hn : SameName t name text)
    (hv : SameValue t v w) : Refines host t Same (Eval.bindName name v) (bindText text w) :=
  fun _ _ hs => .same (matches_bind hs hn hv) (.ok rfl)

theorem refines_define (budget : Nat) (src : Source) (target : Span) {name : Name} {text : Glyphs} {v : LineLisp.Value}
    {w : Value} (hn : SameName t name text) (hv : SameValue t v w) :
    Refines host t Same (Eval.define host budget src target name v) (bindText text w) := by
  intro s r hs
  have hleft := matches_bind hs hn hv
  rw [Eval.define_run]
  split
  · exact .short (Eval.ranShort_exhausted ‹_›) hleft
  · exact .same ⟨hleft.grows, hleft.frames⟩ (.ok rfl)

theorem refines_call (budget : Nat) (span : Span) (b : Builtin) {args : List LineLisp.Value} {args' : List Value}
    (h : SameValues t args args') :
    Refines host t SameValue (Eval.call host budget span (.builtin b) args) (call budget span b args') := by
  intro s r hs
  have ha : LineLisp.Value.spelledEach? s.names args = some args' := LineLisp.Value.spelledEach?_of_grows hs.grows h
  obtain ⟨hgrow, o, hreply, ho⟩ := Builtin.run_spells b ha
  rw [Eval.call_run]
  simp only [Function.call, call, Builtin.stackNeed_spells b ha]
  by_cases hneed : stackNeed args' b > budget
  · rw [if_pos hneed, if_pos hneed]
    split <;> exact .same ⟨s.names.grows_refl, hs.frames⟩ (.error _)
  · rw [if_neg hneed, if_neg hneed, hreply]
    have hleft : Matches s.names (s.setNames (b.run s.names args).2) r := hs.setNames hgrow
    split
    · exact .short (Eval.ranShort_exhausted (And.right ‹_›)) ⟨hleft.grows, hleft.frames⟩
    · generalize resultOf args' b = o' at ho ⊢
      cases ho with
      | none => exact .same hleft (.error _)
      | some hv => exact .same hleft (.ok hv)

/-- What an action leaves above its frame is gone on either side when the frame is. -/
theorem refines_inFrame {P : Name → Prop} {m : LineLisp.EvalM α} {p : EvalM β} (budget : Nat) (hm : Refines host t R m p)
    (hc : Eval.Confined host P m) : Refines host t R (Eval.inFrame host budget m) (inFrame p) := by
  intro s r hs
  have henter : Matches t (Eval.entered s) (r.push .empty) := ⟨hs.grows, hs.frames.push_empty⟩
  have hend := hm _ _ henter
  have hleave (t' : Session) (r' : Frames) (h : Matches s.names t' r') :
      Matches s.names (t'.leave s.enter.1).2 r'.pop := by
    refine ⟨(t'.names_leave s.enter.1).symm ▸ h.grows, ?_⟩
    rw [Session.frames_leave, Session.names_leave]
    exact h.frames.pop
  show SameEnd host s.names R _ ((p (r.push .empty)).1, (p (r.push .empty)).2.pop)
  cases hc.frameEnd budget s with
  | unrecorded hroom hrun =>
    rw [hrun]
    exact .short (Eval.ranShort_exhausted hroom) ⟨s.names.grows_refl, hs.frames.push_empty⟩
  | left f _ _ hrun =>
    rw [hrun]
    generalize m (Eval.entered s) = x, p (r.push .empty) = y at hend
    cases hend with
    | same hleft hout => exact .same (hleave _ _ hleft) ((Session.names_leave _ _).symm ▸ hout)
    | short hshort hleft => exact .short hshort (hleave _ _ hleft)
  | strayed f g _ hshort _ hrun =>
    rw [hrun]
    generalize m (Eval.entered s) = x, p (r.push .empty) = y at hend hshort
    cases hend with
    | same hleft _ => exact .short hshort.outOfOrder (hleave _ _ hleft)
    | short _ hleft => exact .short hshort.outOfOrder (hleave _ _ hleft)

end

/-! ## Shapes -/

section

variable {t : NameTable} {span head : Span} {op : Operator} {args items : List LineLisp.Expr}

theorem spelledEach?_operator_cons {fs : List Expr}
    (h : LineLisp.Expr.spelledEach? t (.atom head (.operator op) :: args) = some fs) :
    ∃ args', LineLisp.Expr.spelledEach? t args = some args' ∧ fs = .atom head (.operator op) :: args' := by
  obtain ⟨f, args', hf, ha, rfl⟩ := spelledEach?_cons_eq_some.mp h
  cases hf
  exact ⟨args', ha, rfl⟩

theorem spelledEach?_pair {a b : LineLisp.Expr} {fs : List Expr}
    (h : LineLisp.Expr.spelledEach? t [a, b] = some fs) :
    ∃ a' b', a.spelled? t = some a' ∧ b.spelled? t = some b' ∧ fs = [a', b'] := by
  obtain ⟨a', gs, ha, hg, rfl⟩ := spelledEach?_cons_eq_some.mp h
  obtain ⟨b', ks, hb, hk, rfl⟩ := spelledEach?_cons_eq_some.mp hg
  cases hk
  exact ⟨a', b', ha, hb, rfl⟩

theorem eq_of_spelled?_operator {e : LineLisp.Expr} (h : e.spelled? t = some (.atom span (.operator op))) :
    e = .atom span (.operator op) := by
  cases e with
  | group at_ b items => obtain ⟨_, -, hg⟩ := Option.map_eq_some_iff.mp h; cases hg
  | atom at_ a =>
    obtain ⟨_, ha, hb⟩ := Option.map_eq_some_iff.mp h
    cases hb
    cases a with
    | keyword name | symbol name => obtain ⟨_, -, hn⟩ := Option.map_eq_some_iff.mp ha; cases hn
    | _ => cases ha <;> rfl

theorem eq_of_spelled?_symbol {e : LineLisp.Expr} {text : Glyphs}
    (h : e.spelled? t = some (.atom span (.symbol text))) : ∃ name, e = .atom span (.symbol name) := by
  cases e with
  | group at_ b items => obtain ⟨_, -, hg⟩ := Option.map_eq_some_iff.mp h; cases hg
  | atom at_ a =>
    obtain ⟨_, ha, hb⟩ := Option.map_eq_some_iff.mp h
    cases hb
    cases a with
    | symbol name => exact ⟨name, rfl⟩
    | keyword name => obtain ⟨_, -, hn⟩ := Option.map_eq_some_iff.mp ha; cases hn
    | _ => cases ha

theorem eq_of_spelled?_group {e : LineLisp.Expr} {b : Bracket} {fs : List Expr}
    (h : e.spelled? t = some (.group span b fs)) :
    ∃ es, e = .group span b es ∧ LineLisp.Expr.spelledEach? t es = some fs := by
  cases e with
  | group at_ b items =>
    obtain ⟨_, hi, hg⟩ := Option.map_eq_some_iff.mp h
    cases hg
    exact ⟨items, rfl, hi⟩
  | atom at_ a => obtain ⟨_, -, hb⟩ := Option.map_eq_some_iff.mp h; cases hb

/-- What is refused for its shape is refused when spelled out, in the same words. -/
theorem eval_refused (src : Source) (budget : Nat) {blamed : Span} {cause : EvalCause} {items' : List Expr}
    (h : Eval.refusal? span items = some (blamed, cause)) (hi : LineLisp.Expr.spelledEach? t items = some items') :
    eval src budget (.group span .round items') = fail blamed cause := by
  cases Eval.refused_of_refusal? h with
  | emptyList => cases hi; rw [eval]
  | define hne =>
    obtain ⟨args', ha, rfl⟩ := spelledEach?_operator_cons hi
    rw [eval]
    rintro target value rfl
    obtain ⟨a, b, rfl⟩ := List.length_eq_two.mp (LineLisp.Expr.length_of_spelledEach? ha)
    exact hne a b rfl
  | choose hne =>
    obtain ⟨args', ha, rfl⟩ := spelledEach?_operator_cons hi
    rw [eval]
    rintro condition yes no rfl
    obtain ⟨a, b, c, rfl⟩ := List.length_eq_three.mp (LineLisp.Expr.length_of_spelledEach? ha)
    exact hne a b c rfl
  | oddBindings hodd =>
    obtain ⟨args', ha, rfl⟩ := spelledEach?_operator_cons hi
    obtain ⟨f, body', hf, -, rfl⟩ := spelledEach?_pair ha
    obtain ⟨slots', hs, rfl⟩ := Option.map_eq_some_iff.mp hf
    rw [eval, ← LineLisp.Expr.length_of_spelledEach? hs, if_neg hodd]
  | bindings hne =>
    obtain ⟨args', ha, rfl⟩ := spelledEach?_operator_cons hi
    obtain ⟨f, body', hf, -, rfl⟩ := spelledEach?_pair ha
    rw [eval]
    rintro at_ b slots rfl
    obtain ⟨es, rfl, -⟩ := eq_of_spelled?_group hf
    exact hne at_ b es rfl
  | bind _ hne =>
    obtain ⟨args', ha, rfl⟩ := spelledEach?_operator_cons hi
    have hpair : ∀ f g, args' = [f, g] → False := by
      rintro f g rfl
      obtain ⟨x, y, rfl⟩ := List.length_eq_two.mp (LineLisp.Expr.length_of_spelledEach? ha)
      exact hne x y rfl
    rw [eval]
    · exact fun at_ b slots body => hpair _ body
    · exact hpair
  | head hd hc hb hs =>
    obtain ⟨f, gs, hf, -, rfl⟩ := spelledEach?_cons_eq_some.mp hi
    rw [← LineLisp.Expr.span_of_spelled? hf, eval]
    · rintro at_ rfl
      exact hd at_ (eq_of_spelled?_operator hf)
    · rintro at_ rfl
      exact hc at_ (eq_of_spelled?_operator hf)
    · rintro at_ rfl
      exact hb at_ (eq_of_spelled?_operator hf)
    · rintro at_ text rfl
      obtain ⟨name, hname⟩ := eq_of_spelled?_symbol hf
      exact hs at_ name hname

theorem evalBindings_done (src : Source) (budget : Nat) {slots : List Expr} (h : slots.length < 2) :
    evalBindings src budget slots = pure () := by
  rw [evalBindings]
  exact Eval.not_pair h

end

/-! ## Forms -/

section

variable {host : Host} {src : Source} {span head : Span}

/-- Evaluation of an expression with names does what that of the same with texts does, with any
    budget and from any table that spells it so. -/
def RefinesAt (host : Host) (src : Source) (e : LineLisp.Expr) : Prop :=
  ∀ budget t f, e.spelled? t = some f → Refines host t SameValue (Eval.eval host src budget e) (eval src budget f)

theorem refines_vector {items : List LineLisp.Expr}
    (hitems : ∀ budget t fs, LineLisp.Expr.spelledEach? t items = some fs →
      Refines host t SameValues (Eval.evalEach host src budget items) (evalEach src budget fs)) :
    RefinesAt host src (.group span .square items) := by
  intro budget t f h
  obtain ⟨items', hi, rfl⟩ := Option.map_eq_some_iff.mp h
  rw [Eval.eval, eval]
  refine refines_spend_bind fun u b hu => ?_
  have hi : LineLisp.Expr.spelledEach? u items = some items' := LineLisp.Expr.spelledEach?_of_grows hu hi
  refine refines_bind (hitems b u items' hi) fun u vs ws _ hv => refines_pure fun u' hu' => ?_
  have hv : LineLisp.Value.spelledEach? u' vs = some ws := LineLisp.Value.spelledEach?_of_grows hu' hv
  rw [SameValue, LineLisp.Value.spelled?, hv]
  rfl

theorem refines_defineForm {target value : LineLisp.Expr} (hvalue : RefinesAt host src value) :
    RefinesAt host src (.group span .round [.atom head (.operator .define), target, value]) := by
  intro budget t f h
  obtain ⟨items', hi, rfl⟩ := Option.map_eq_some_iff.mp h
  obtain ⟨args', ha, rfl⟩ := spelledEach?_operator_cons hi
  obtain ⟨target', value', ht, hv, rfl⟩ := spelledEach?_pair ha
  rw [Eval.eval, eval]
  refine refines_spend_bind fun u b hu => ?_
  refine refines_bind (refines_nameOf (LineLisp.Expr.spelled?_of_grows hu ht)) fun u' name text hu' hn => ?_
  have hv : value.spelled? u' = some value' := LineLisp.Expr.spelled?_of_grows (hu.trans hu') hv
  refine refines_bind (hvalue b u' value' hv) fun u'' v w hu'' hw => ?_
  have hn : SameName u'' name text := NameTable.text?_of_grows hu'' hn
  refine refines_bind (refines_define b src target.span hn hw) fun x _ _ hx _ => refines_pure fun y hy => ?_
  exact LineLisp.Value.spelled?_of_grows (hx.trans hy) hw

theorem refines_chooseForm {condition yes no : LineLisp.Expr} (hcondition : RefinesAt host src condition)
    (hyes : RefinesAt host src yes) (hno : RefinesAt host src no) :
    RefinesAt host src (.group span .round [.atom head (.operator .choose), condition, yes, no]) := by
  intro budget t f h
  obtain ⟨items', hi, rfl⟩ := Option.map_eq_some_iff.mp h
  obtain ⟨args', ha, rfl⟩ := spelledEach?_operator_cons hi
  obtain ⟨condition', branches', hc, hb, rfl⟩ := spelledEach?_cons_eq_some.mp ha
  obtain ⟨yes', no', hy, hn, rfl⟩ := spelledEach?_pair hb
  rw [Eval.eval, eval]
  refine refines_spend_bind fun u b hu => ?_
  refine refines_bind (hcondition b u condition' (LineLisp.Expr.spelled?_of_grows hu hc)) fun u' v w hu' hv => ?_
  rw [LineLisp.Value.isTruthy_spells hv]
  split
  · exact hyes b u' yes' (LineLisp.Expr.spelled?_of_grows (hu.trans hu') hy)
  · exact hno b u' no' (LineLisp.Expr.spelled?_of_grows (hu.trans hu') hn)

theorem refines_bindForm {at_ : Span} {b : Bracket} {slots : List LineLisp.Expr} {body : LineLisp.Expr}
    (heven : slots.length % 2 = 0)
    (hslots : ∀ budget t fs, LineLisp.Expr.spelledEach? t slots = some fs →
      Refines host t Same (Eval.evalBindings host src budget slots) (evalBindings src budget fs))
    (hbody : RefinesAt host src body) :
    RefinesAt host src (.group span .round [.atom head (.operator .bind), .group at_ b slots, body]) := by
  intro budget t f h
  obtain ⟨confinedEval, -, confinedBindings⟩ := Eval.confined_evaluators host src
  obtain ⟨items', hi, rfl⟩ := Option.map_eq_some_iff.mp h
  obtain ⟨args', ha, rfl⟩ := spelledEach?_operator_cons hi
  obtain ⟨bindings', body', hg, hb, rfl⟩ := spelledEach?_pair ha
  obtain ⟨slots', hs, rfl⟩ := Option.map_eq_some_iff.mp hg
  have heven' : slots'.length % 2 = 0 := by rw [← LineLisp.Expr.length_of_spelledEach? hs, heven]
  rw [Eval.eval, eval, if_pos heven, if_pos heven']
  refine refines_spend_bind fun u b hu => ?_
  refine refines_inFrame b ?_ (Eval.confined_letScope host src b (confinedEval b body) (confinedBindings b slots))
  refine refines_bind (hslots b u slots' (LineLisp.Expr.spelledEach?_of_grows hu hs)) fun u' _ _ hu' _ => ?_
  exact hbody b u' body' (LineLisp.Expr.spelled?_of_grows (hu.trans hu') hb)

theorem refines_callForm {name : Name} {args : List LineLisp.Expr}
    (hargs : ∀ budget t fs, LineLisp.Expr.spelledEach? t args = some fs →
      Refines host t SameValues (Eval.evalEach host src budget args) (evalEach src budget fs)) :
    RefinesAt host src (.group span .round (.atom head (.symbol name) :: args)) := by
  intro budget t f h
  obtain ⟨items', hi, rfl⟩ := Option.map_eq_some_iff.mp h
  obtain ⟨head', args', hh, ha, rfl⟩ := spelledEach?_cons_eq_some.mp hi
  obtain ⟨a, hsym, rfl⟩ := Option.map_eq_some_iff.mp hh
  obtain ⟨text, hn, rfl⟩ := Option.map_eq_some_iff.mp hsym
  rw [Eval.eval, eval]
  refine refines_bind (refines_lookup src head hn) fun u v w hu hv => ?_
  cases LineLisp.Value.spelling hv with
  | function b =>
    refine refines_spend_bind fun u' left hu' => ?_
    have ha : LineLisp.Expr.spelledEach? u' args = some args' :=
      LineLisp.Expr.spelledEach?_of_grows (hu.trans hu') ha
    refine refines_bind (hargs left u' args' ha) fun _ vs ws _ hvs => ?_
    exact refines_call left span b hvs
  | _ => exact refines_fail _ _

end

/-! ## Evaluation -/

theorem refines_evaluators (host : Host) (src : Source) :
    (∀ budget e, ∀ t f, e.spelled? t = some f →
      Refines host t SameValue (Eval.eval host src budget e) (eval src budget f)) ∧
    (∀ budget es, ∀ t fs, LineLisp.Expr.spelledEach? t es = some fs →
      Refines host t SameValues (Eval.evalEach host src budget es) (evalEach src budget fs)) ∧
    ∀ budget slots, ∀ t fs, LineLisp.Expr.spelledEach? t slots = some fs →
      Refines host t Same (Eval.evalBindings host src budget slots) (evalBindings src budget fs) := by
  refine Eval.eval_induction ?atom ?vector ?refused ?define ?choose ?bind ?call ?nil ?cons ?slot ?done
  case atom =>
    intro budget span a t f h
    obtain ⟨b, ha, rfl⟩ := Option.map_eq_some_iff.mp h
    rw [Eval.eval, eval]
    exact refines_evalAtom src span ha
  case vector => exact fun budget span items ih => refines_vector ih budget
  case refused =>
    intro budget span items blamed cause hr t f h
    obtain ⟨items', hi, rfl⟩ := Option.map_eq_some_iff.mp h
    rw [Eval.eval_refused host src budget hr, eval_refused src budget hr hi]
    exact refines_fail _ _
  case define => exact fun budget span head target value ih => refines_defineForm ih budget
  case choose => exact fun budget span head condition yes no ihc ihy ihn => refines_chooseForm ihc ihy ihn budget
  case bind => exact fun budget span head at_ b slots body heven ihs ihb => refines_bindForm heven ihs ihb budget
  case call => exact fun budget span head name args ih => refines_callForm ih budget
  case nil =>
    intro budget t fs h
    cases h
    rw [Eval.evalEach, evalEach]
    exact refines_pure fun _ _ => rfl
  case cons =>
    intro budget e es ihe ihes t fs h
    obtain ⟨f, gs, hf, hg, rfl⟩ := spelledEach?_cons_eq_some.mp h
    rw [Eval.evalEach, evalEach]
    refine refines_bind (ihe t f hf) fun u v w hu hv => ?_
    refine refines_bind (ihes u gs (LineLisp.Expr.spelledEach?_of_grows hu hg)) fun u' vs ws hu' hvs => ?_
    refine refines_pure fun u'' hu'' => LineLisp.Value.spelledEach?_cons_eq_some.mpr ⟨w, ws, ?_, ?_, rfl⟩
    · exact LineLisp.Value.spelled?_of_grows (hu'.trans hu'') hv
    · exact LineLisp.Value.spelledEach?_of_grows hu'' hvs
  case slot =>
    intro budget target value rest ihv ihr t fs h
    obtain ⟨target', fs', ht, hfs, rfl⟩ := spelledEach?_cons_eq_some.mp h
    obtain ⟨value', rest', hv, hr, rfl⟩ := spelledEach?_cons_eq_some.mp hfs
    rw [Eval.evalBindings, evalBindings]
    refine refines_bind (refines_nameOf ht) fun u name text hu hn => ?_
    refine refines_bind (ihv u value' (LineLisp.Expr.spelled?_of_grows hu hv)) fun u' v w hu' hw => ?_
    have hn : SameName u' name text := NameTable.text?_of_grows hu' hn
    refine refines_bind (refines_bindName hn hw) fun u'' _ _ hu'' _ => ?_
    exact ihr u'' rest' (LineLisp.Expr.spelledEach?_of_grows (hu.trans (hu'.trans hu'')) hr)
  case done =>
    intro budget slots hlen t fs h
    have hlen' : fs.length < 2 := by rw [← LineLisp.Expr.length_of_spelledEach? h]; exact hlen
    rw [Eval.evalBindings_done host src budget hlen, evalBindings_done src budget hlen']
    exact refines_pure fun _ _ => rfl

end LineLisp.Spelled
