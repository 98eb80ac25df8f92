/-
  LineLisp.Proofs.Scope.Refinement — a stack of frames is as good as one map.

  The merged view of a stack has of every name the topmost binding. Evaluation with
  frames does to the merged view, and to the names, what evaluation with one map does
  to the map (`Refines`, operation by operation). The one operation that is no mere
  passing on is a new frame: what is left of it when it is left again is nothing,
  because evaluation is confined to the topmost frame.

  If there is no stack for the record of a new frame, the frame stays, and so do the
  bindings of the `let` around it. Then one map is what the frames below are merged into,
  and a frame left out of order is for it no more than running out of stack.
-/

import LineLisp.Proofs.Eval.Effect
import LineLisp.Proofs.Scope

namespace LineLisp

/-! ## The merged view -/

section

variable {κ ν : Type} [DecidableEq κ]

def Frame.toFinmap (f : Frame κ ν) : Finmap fun _ : κ => ν :=
  (f.entries.map fun p => (⟨p.1, p.2⟩ : Sigma fun _ => ν)).toFinmap

theorem Frame.lookup_toFinmap (f : Frame κ ν) (k : κ) : f.toFinmap.lookup k = f.get? k := by
  rw [toFinmap, Finmap.dlookup_list_toFinmap]
  rcases f with ⟨es⟩
  induction es with
  | nil => rfl
  | cons e es ih =>
    rcases e with ⟨j, v⟩
    rw [List.map_cons, get?_cons]
    by_cases h : k = j
    · subst h; simp
    · rw [List.dlookup_cons_ne _ _ h, ih, if_neg h]

namespace FrameStack

/-- All bindings in one map, upper frames over lower ones. -/
def merged (s : FrameStack κ ν) : Finmap fun _ : κ => ν := s.frames.foldr (fun f m => f.toFinmap ∪ m) ∅

theorem lookup_merged (s : FrameStack κ ν) (k : κ) : s.merged.lookup k = s.get? k := by
  simp only [merged, get?]
  induction s.frames with
  | nil => exact Finmap.lookup_empty k
  | cons f fs ih =>
    rw [List.foldr_cons, List.findSome?_cons, ← f.lookup_toFinmap]
    cases h : f.toFinmap.lookup k with
    | none => rw [Finmap.lookup_union_right (Finmap.lookup_eq_none.mp h), ih]
    | some v => rw [Finmap.lookup_union_left (Finmap.mem_of_lookup_eq_some h), h]

theorem merged_insert (s : FrameStack κ ν) (k : κ) (v : ν) : (s.insert k v).merged = s.merged.insert k v := by
  refine Finmap.ext_lookup fun j => ?_
  rw [lookup_merged, get?_insert]
  by_cases h : j = k
  · rw [if_pos h, h, Finmap.lookup_insert]
  · rw [if_neg h, Finmap.lookup_insert_of_ne _ h, lookup_merged]

theorem merged_push_empty (s : FrameStack κ ν) : (s.push .empty).merged = s.merged := by
  refine Finmap.ext_lookup fun k => ?_
  rw [lookup_merged, lookup_merged, get?_push, Frame.get?_empty, Option.none_or]

end FrameStack

end

namespace Scope

open Eval (bind_run RanShort)

/-! ## Operation by operation -/

/-- A session as one map of bindings and the names. -/
def ofSession (s : Session) : Scope := ⟨s.frames.merged, s.names⟩

/-- The end of an action in a session and of another with the merged view of its frames: the
    same outcome, and the merged view is the map. Or the one ran short of stack and has
    left a frame more, the other ran out of it, and its map is what is merged below that frame. -/
inductive SameEnd {α : Type} (host : Host) (s : Session) : Except Stop α × Session → Except Stop α × Scope → Prop
  | same {r : Except Stop α} {t : Session} : t.depth = s.depth → SameEnd host s (r, t) (r, ofSession t)
  | strayed {r : Except Stop α} {t : Session} : RanShort host r → t.depth = s.depth + 1 →
      SameEnd host s (r, t) (.error .exhausted, ⟨t.frames.pop.merged, t.names⟩)

/-- The second action does to the merged view and the names what the first does to the session. -/
def Refines {α : Type} (host : Host) (m : EvalM α) (p : ScopeM α) : Prop := ∀ s, SameEnd host s (m s) (p (ofSession s))

section

variable {α β : Type} {host : Host}

theorem refines_pure (a : α) : Refines host (pure a) (pure a) := fun _ => .same rfl

theorem refines_throw (e : Stop) : Refines host (throw e : EvalM α) (throw e) := fun _ => .same rfl

theorem refines_fail (span : Span) (cause : EvalCause) :
    Refines host (Eval.fail span cause : EvalM α) (fail span cause) := refines_throw _

theorem refines_bind {m : EvalM α} {p : ScopeM α} {f : α → EvalM β} {g : α → ScopeM β} (hm : Refines host m p)
    (hf : ∀ a, Refines host (f a) (g a)) : Refines host (m >>= f) (p >>= g) := by
  intro s
  have hend := hm s
  rw [bind_run, bind_run]
  generalize m s = x, p (ofSession s) = y at hend
  cases hend with
  | @strayed r t hshort hdepth =>
    cases r with
    | ok a => exact absurd hshort Eval.not_ranShort_ok
    | error e => exact .strayed hshort.error hdepth
  | @same r t hdepth =>
    cases r with
    | error e => exact .same hdepth
    | ok a =>
      have hrest := hf a t
      show SameEnd host s (f a t) (g a (ofSession t))
      generalize f a t = x, g a (ofSession t) = y at hrest
      cases hrest with
      | same hd => exact .same (hd.trans hdepth)
      | strayed hshort hd => exact .strayed hshort (hdepth ▸ hd)

theorem refines_spend (budget cost : Nat) : Refines host (Eval.spend budget cost) (spend budget cost) := by
  unfold Eval.spend spend
  split
  · exact refines_throw _
  · exact refines_pure _

theorem refines_lookup (src : Source) (span : Span) (name : Name) :
    Refines host (Eval.lookup src span name) (lookup src span name) := by
  intro s
  have hl : (ofSession s).bindings.lookup name = s.get? name := s.frames.lookup_merged name
  rw [Eval.lookup_run, lookup_run, hl]
  cases s.get? name <;> exact .same rfl

theorem refines_evalAtom (src : Source) (span : Span) (a : Atom) :
    Refines host (Eval.evalAtom src span a) (evalAtom src span a) := by
  cases a with
  | symbol name => exact refines_lookup src span name
  | string =>
    simp only [Eval.evalAtom, evalAtom]
    cases Span.of? (span.lo + 1) (span.hi - 1) with
    | some inner => exact refines_pure _
    | none => exact refines_throw _
  | _ => first | exact refines_pure _ | exact refines_throw _

theorem refines_nameOf (e : Expr) : Refines host (Eval.nameOf e) (nameOf e) := by
  cases e with
  | group span b items => exact refines_fail _ _
  | atom span a => cases a <;> first | exact refines_pure _ | exact refines_fail _ _

theorem refines_call (budget : Nat) (span : Span) (f : Function) (args : List Value) :
    Refines host (Eval.call host budget span f args) (call host budget span f args) := by
  intro s
  have hnames : (ofSession s).names = s.names := rfl
  rw [Eval.call_run, call_run, hnames]
  rcases f.call host.functions budget s.names args with ⟨reply, names⟩
  simp only
  split
  · exact .same (t := s.setTable names) rfl
  · exact .same (t := s.setNames names) rfl

theorem ofSession_bind (s : Session) (name : Name) (v : Value) :
    ofSession (s.bind name v) = { ofSession s with bindings := (ofSession s).bindings.insert name v } := by
  rw [ofSession, Session.bind, FrameStack.merged_insert]
  rfl

theorem refines_bindName (name : Name) (v : Value) : Refines host (Eval.bindName name v) (extend name v) := by
  intro s
  show SameEnd host s (.ok (), s.bind name v) (.ok (), { ofSession s with bindings := (ofSession s).bindings.insert name v })
  rw [← ofSession_bind]
  exact .same (s.depth_bind name v)

/-- A name is bound also where there is no stack to record that. -/
theorem refines_define (budget : Nat) (src : Source) (target : Span) (name : Name) (v : Value) :
    Refines host (Eval.define host budget src target name v) (extend name v >>= fun _ => room host budget) := by
  intro s
  rw [Eval.define_run]
  show SameEnd host s _ (room host budget { ofSession s with bindings := (ofSession s).bindings.insert name v })
  rw [← ofSession_bind, room_run]
  split
  · exact .same (s.depth_bind name v)
  · exact .same (t := (s.bind name v).note _) (s.depth_bind name v)

/-- A new frame shadows what is below it and is gone at the end, like a copy. -/
theorem refines_inFrame {P : Name → Prop} {m : EvalM α} {p : ScopeM α} (budget : Nat) (hm : Refines host m p)
    (hc : Eval.Confined host P m) :
    Refines host (Eval.inFrame host budget m) (room host budget >>= fun _ => privately p) := by
  intro s
  have hview : ofSession (Eval.entered s) = ofSession s := by
    rw [ofSession, Eval.frames_entered, FrameStack.merged_push_empty]
    rfl
  have hend := hm (Eval.entered s)
  have hnames := (m (Eval.entered s)).2.names_leave s.enter.1
  rw [hview] at hend
  rw [bind_run, room_run]
  cases hc.frameEnd budget s with
  | unrecorded hroom hrun =>
    rw [hrun, if_pos hroom]
    exact .strayed (t := s.enter.2) (Eval.ranShort_exhausted hroom) rfl
  | left f hroom hf hrun hframes =>
    rw [hrun] at hframes ⊢
    rw [if_neg (Nat.not_lt_of_le hroom)]
    show SameEnd host s _ ((p (ofSession s)).1, ⟨s.frames.merged, (p (ofSession s)).2.names⟩)
    generalize m (Eval.entered s) = x, p (ofSession s) = y at *
    cases hend with
    | @same r t hdepth =>
      have hscope : (⟨s.frames.merged, t.names⟩ : Scope) = ofSession (t.leave s.enter.1).2 := by
        rw [ofSession, hframes, hnames]
      show SameEnd host s (r, (t.leave s.enter.1).2) (r, ⟨s.frames.merged, t.names⟩)
      rw [hscope]
      exact .same (congrArg FrameStack.depth hframes)
    | @strayed r t _ hdepth =>
      exact absurd ((Eval.depth_of_push hf).symm.trans hdepth) (Nat.ne_of_lt (Nat.lt_succ_self _))
  | strayed f g hroom hshort hg hrun hframes =>
    rw [hrun] at hframes ⊢
    rw [if_neg (Nat.not_lt_of_le hroom)]
    show SameEnd host s _ ((p (ofSession s)).1, ⟨s.frames.merged, (p (ofSession s)).2.names⟩)
    generalize m (Eval.entered s) = x, p (ofSession s) = y at *
    cases hend with
    | @same r t hdepth =>
      exact absurd (hdepth.symm.trans (Eval.depth_of_push_push hg)) (Nat.ne_of_lt (Nat.lt_succ_self _))
    | @strayed r t _ hdepth =>
      have hscope : (⟨s.frames.merged, t.names⟩ : Scope)
          = ⟨(t.leave s.enter.1).2.frames.pop.merged, (t.leave s.enter.1).2.names⟩ := by
        rw [hframes, FrameStack.pop_push, hnames]
      show SameEnd host s (_, (t.leave s.enter.1).2) (.error .exhausted, ⟨s.frames.merged, t.names⟩)
      rw [hscope]
      refine .strayed hshort.outOfOrder ?_
      exact Eval.depth_of_push hframes

end

/-! ## Forms -/

section

variable (host : Host) (src : Source) (budget : Nat) {span head : Span}

theorem refines_defineForm {target value : Expr}
    (hvalue : ∀ b, Refines host (Eval.eval host src b value) (eval host src b value)) :
    let form := Expr.group span .round [.atom head (.operator .define), target, value]
    Refines host (Eval.eval host src budget form) (eval host src budget form) := by
  intro form
  rw [Eval.eval, eval]
  refine refines_bind (refines_spend _ _) fun b => refines_bind (refines_nameOf _) fun name => ?_
  refine refines_bind (hvalue b) fun v => ?_
  have hdefine : Refines host (Eval.define host b src target.span name v >>= fun _ => pure v)
      ((extend name v >>= fun _ => room host b) >>= fun _ => pure v) :=
    refines_bind (refines_define b src target.span name v) fun _ => refines_pure v
  rwa [bind_assoc] at hdefine

theorem refines_chooseForm {condition yes no : Expr}
    (hcondition : ∀ b, Refines host (Eval.eval host src b condition) (eval host src b condition))
    (hyes : ∀ b, Refines host (Eval.eval host src b yes) (eval host src b yes))
    (hno : ∀ b, Refines host (Eval.eval host src b no) (eval host src b no)) :
    let form := Expr.group span .round [.atom head (.operator .choose), condition, yes, no]
    Refines host (Eval.eval host src budget form) (eval host src budget form) := by
  intro form
  rw [Eval.eval, eval]
  refine refines_bind (refines_spend _ _) fun b => refines_bind (hcondition b) fun v => ?_
  split
  · exact hyes b
  · exact hno b

theorem refines_bindForm {at_ : Span} {b : Bracket} {slots : List Expr} {body : Expr} (heven : slots.length % 2 = 0)
    (hslots : ∀ b, Refines host (Eval.evalBindings host src b slots) (evalBindings host src b slots))
    (hbody : ∀ b, Refines host (Eval.eval host src b body) (eval host src b body)) :
    let form := Expr.group span .round [.atom head (.operator .bind), .group at_ b slots, body]
    Refines host (Eval.eval host src budget form) (eval host src budget form) := by
  intro form
  obtain ⟨confinedEval, -, confinedBindings⟩ := Eval.confined_evaluators host src
  rw [Eval.eval, eval, if_pos heven, if_pos heven]
  refine refines_bind (refines_spend _ _) fun b => ?_
  exact refines_inFrame b (refines_bind (hslots b) fun _ => hbody b)
    (Eval.confined_letScope host src b (confinedEval b body) (confinedBindings b slots))

theorem refines_callForm {name : Name} {args : List Expr}
    (hargs : ∀ b, Refines host (Eval.evalEach host src b args) (evalEach host src b args)) :
    let form := Expr.group span .round (.atom head (.symbol name) :: args)
    Refines host (Eval.eval host src budget form) (eval host src budget form) := by
  intro form
  rw [Eval.eval, eval]
  refine refines_bind (refines_lookup _ _ _) fun v => ?_
  cases v with
  | function f =>
    refine refines_bind (refines_spend _ _) fun b => refines_bind (hargs b) fun vs => ?_
    exact refines_call _ _ _ _
  | _ => exact refines_fail _ _

end

/-! ## Evaluation -/

theorem refines_evaluators (host : Host) (src : Source) :
    (∀ budget e, Refines host (Eval.eval host src budget e) (eval host src budget e)) ∧
    (∀ budget es, Refines host (Eval.evalEach host src budget es) (evalEach host src budget es)) ∧
    ∀ budget slots, Refines host (Eval.evalBindings host src budget slots) (evalBindings host src budget slots) := by
  refine Eval.eval_induction ?atom ?vector ?refused ?define ?choose ?bind ?call ?nil ?cons ?slot ?done
  case atom =>
    intro budget span a
    rw [Eval.eval, eval]
    exact refines_evalAtom src span a
  case vector =>
    intro budget span items ih
    rw [Eval.eval, eval]
    exact refines_bind (refines_spend _ _) fun b => refines_bind (ih b) fun vs => refines_pure _
  case refused =>
    intro budget span items blamed cause h
    rw [Eval.eval_refused host src budget h, eval_refused host src budget h]
    exact refines_fail _ _
  case define => exact fun budget _ _ _ _ ih => refines_defineForm host src budget ih
  case choose => exact fun budget _ _ _ _ _ ihc ihy ihn => refines_chooseForm host src budget ihc ihy ihn
  case bind => exact fun budget _ _ _ _ _ _ heven ihs ihb => refines_bindForm host src budget heven ihs ihb
  case call => exact fun budget _ _ _ _ ih => refines_callForm host src budget ih
  case nil =>
    intro budget
    rw [Eval.evalEach, evalEach]
    exact refines_pure _
  case cons =>
    intro budget e es ihe ihes
    rw [Eval.evalEach, evalEach]
    exact refines_bind ihe fun v => refines_bind ihes fun vs => refines_pure _
  case slot =>
    intro budget target value rest ihv ihr
    rw [Eval.evalBindings, evalBindings]
    refine refines_bind (refines_nameOf _) fun name => refines_bind ihv fun v => ?_
    exact refines_bind (refines_bindName name v) fun _ => ihr
  case done =>
    intro budget slots hlen
    rw [Eval.evalBindings_done host src budget hlen, evalBindings_done host src budget hlen]
    exact refines_pure ()

/-- Evaluation in a session and evaluation with the merged view of its frames leave the same
    names. They have the same outcome, and the view of the frames left behind is the map that
    is left; or the record of a new frame has run short of stack. Then there is one frame
    more, the view of those below it is the map that is left, and evaluation with the map has
    run out of stack. -/
theorem eval_eq_eval_merged (host : Host) (src : Source) (budget : Nat) (e : Expr) (s : Session) :
    let inSession := Eval.eval host src budget e s
    let inScope := eval host src budget e ⟨s.frames.merged, s.names⟩
    inSession.2.names = inScope.2.names ∧
      ((inSession.1 = inScope.1 ∧ inSession.2.frames.merged = inScope.2.bindings) ∨
        RanShort host inSession.1 ∧ inScope.1 = .error .exhausted ∧ inSession.2.depth = s.depth + 1 ∧
          inSession.2.frames.pop.merged = inScope.2.bindings) := by
  intro inSession inScope
  have h : SameEnd host s inSession inScope := (refines_evaluators host src).1 budget e s
  generalize inSession = x, inScope = y at h
  cases h with
  | same hdepth => exact ⟨rfl, Or.inl ⟨rfl, rfl⟩⟩
  | strayed hshort hdepth => exact ⟨rfl, Or.inr ⟨hshort, rfl, hdepth, rfl⟩⟩

/-- The inner frame of `(let [x 1] (let [] 1))` that there is no stack to record: the outer
    `let` has another outcome than with a map, and its binding is still there. -/
theorem eval_ne_eval_merged :
    let e := Expr.group (Span.ofLength 0 21) .round
      [.atom (Span.ofLength 1 3) (.operator .bind),
        .group (Span.ofLength 5 5) .square [.atom (Span.ofLength 6 1) (.symbol 0), .atom (Span.ofLength 8 1) (.integer 1)],
        .group (Span.ofLength 11 10) .round
          [.atom (Span.ofLength 12 3) (.operator .bind), .group (Span.ofLength 16 2) .square [],
            .atom (Span.ofLength 19 1) (.integer 1)]]
    let src : Source := ⟨"(let [x 1] (let [] 1))".toList, 0⟩
    let host : Host := ⟨Hosts.none, 13⟩
    let inSession := Eval.eval host src 18 e .empty
    let inScope := eval host src 18 e ⟨Session.empty.frames.merged, Session.empty.names⟩
    inSession.1 = .error (.fault .framesOutOfOrder) ∧ inScope.1 = .error .exhausted ∧
      inSession.2.frames.merged.lookup 0 = some (.int 1) ∧ inScope.2.bindings.lookup 0 = none := by
  refine ⟨rfl, rfl, ?_, ?_⟩
  · rw [FrameStack.lookup_merged]
    rfl
  · show Session.empty.frames.merged.lookup 0 = none
    rw [FrameStack.lookup_merged]
    rfl

end Scope

end LineLisp
