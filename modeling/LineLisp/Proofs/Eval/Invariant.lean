/-
  LineLisp.Proofs.Eval.Invariant — properties that every step of an evaluation keeps.

  A family of properties of values, expressions, tables of names and stops is kept
  (`Properties.Kept`) if expressions hand theirs on to their items, and atoms, vectors and
  calls have values with theirs. Then each step keeps it (`Step.keeps`): all values at hand,
  that tasks keep and that frames bind have it, and so have all expressions that are still to
  be evaluated and the session's table. Hence so does every point of an evaluation
  (`Runs.keeps`), and its outcome (`keeps_eval`).
-/

import LineLisp.Proofs.Eval.Steps

namespace LineLisp

/-! ## Frames -/

namespace FrameStack

variable {κ ν : Type}

/-- All values that the frames bind. -/
def values (s : FrameStack κ ν) : List ν := s.frames.flatMap fun f => f.entries.map (·.2)

theorem mem_values_of_pop {s : FrameStack κ ν} {v : ν} (h : v ∈ s.pop.values) : v ∈ s.values := by
  obtain ⟨f, hf, hv⟩ := List.mem_flatMap.mp h
  refine List.mem_flatMap.mpr ⟨f, ?_, hv⟩
  rcases List.mem_append.mp hf with hf | hf
  · exact List.mem_append_left _ (List.mem_of_mem_tail hf)
  · exact List.mem_append_right _ hf

variable [DecidableEq κ]

theorem mem_values_insertEntry {k : κ} {v w : ν} {es : List (κ × ν)}
    (h : w ∈ (Frame.insertEntry k v es).map (·.2)) : w = v ∨ w ∈ es.map (·.2) := by
  induction es with
  | nil =>
    rcases List.mem_cons.mp h with rfl | h
    · exact Or.inl rfl
    · cases h
  | cons e es ih =>
    unfold Frame.insertEntry at h
    split at h
    · rcases List.mem_cons.mp h with rfl | h
      · exact Or.inl rfl
      · exact Or.inr (List.mem_cons_of_mem _ h)
    · rcases List.mem_cons.mp h with rfl | h
      · exact Or.inr List.mem_cons_self
      · exact (ih h).imp_right (List.mem_cons_of_mem _)

theorem mem_values_insert {s : FrameStack κ ν} {k : κ} {v w : ν} (h : w ∈ (s.insert k v).values) :
    w = v ∨ w ∈ s.values := by
  obtain ⟨bottom, _ | ⟨f, upper⟩⟩ := s
  · rw [values, frames, List.nil_append, List.flatMap_singleton]
    rw [insert, values, frames, List.nil_append, List.flatMap_singleton] at h
    exact mem_values_insertEntry h
  · rw [values, frames, List.cons_append, List.flatMap_cons]
    rw [insert, values, frames, List.cons_append, List.flatMap_cons] at h
    rcases List.mem_append.mp h with h | h
    · exact (mem_values_insertEntry h).imp_right (List.mem_append_left _)
    · exact Or.inr (List.mem_append_right _ h)

theorem mem_values_of_get? {s : FrameStack κ ν} {k : κ} {v : ν} (h : s.get? k = some v) : v ∈ s.values := by
  obtain ⟨f, hf, hv⟩ := List.exists_of_findSome?_eq_some h
  obtain ⟨l₁, l₂, hl, -⟩ := List.lookup_eq_some_iff.mp hv
  refine List.mem_flatMap.mpr ⟨f, hf, List.mem_map.mpr ⟨(k, v), ?_, rfl⟩⟩
  rw [hl]
  exact List.mem_append_right _ List.mem_cons_self

end FrameStack

/-! ## Properties -/

/-- Properties of what an evaluation works on. -/
structure Properties where
  value : Value → Prop
  expr : Expr → Prop
  names : NameTable → Prop
  stop : Stop → Prop

variable {P : Properties}

/-- All that a session binds and the table of its names have the properties. -/
structure Session.Has (P : Properties) (s : Session) : Prop where
  values : ∀ v ∈ s.frames.values, P.value v
  names : P.names s.names

namespace Session

variable {s : Session}

theorem Has.note (hs : s.Has P) (e : LogEvent) : (s.note e).Has P := ⟨hs.values, hs.names⟩

theorem Has.setTable (hs : s.Has P) {names : NameTable} (h : P.names names) : (s.setTable names).Has P := ⟨hs.values, h⟩

theorem Has.setNames (hs : s.Has P) {names : NameTable} (h : P.names names) : (s.setNames names).Has P := ⟨hs.values, h⟩

theorem Has.bind (hs : s.Has P) (name : Name) {v : Value} (hv : P.value v) : (s.bind name v).Has P := by
  refine ⟨fun w hw => ?_, hs.names⟩
  rcases FrameStack.mem_values_insert hw with rfl | hw
  · exact hv
  · exact hs.values w hw

theorem Has.enter (hs : s.Has P) : s.enter.2.Has P := ⟨hs.values, hs.names⟩

theorem Has.leave (hs : s.Has P) (mark : Nat) : (s.leave mark).2.Has P := by
  constructor
  · intro v hv
    rw [frames_leave] at hv
    exact hs.values v (FrameStack.mem_values_of_pop hv)
  · rw [names_leave]
    exact hs.names

theorem Has.get? (hs : s.Has P) {name : Name} {v : Value} (h : s.get? name = some v) : P.value v :=
  hs.values v (FrameStack.mem_values_of_get? h)

end Session

namespace Eval

/-! ## Configurations -/

def Focus.values : Focus → List Value
  | items _ _ values _ => values
  | done (.ok v) => [v]
  | _ => []

def Focus.exprs : Focus → List Expr
  | expr _ e => [e]
  | items _ _ _ rest => rest
  | slots _ rest body => rest ++ [body]
  | done _ => []

def Task.values : Task → List Value
  | item _ _ values _ => values
  | _ => []

def Task.exprs : Task → List Expr
  | item _ _ _ rest => rest
  | choose _ yes no => [yes, no]
  | slot _ _ rest body => rest ++ [body]
  | _ => []

/-- All values at hand: the value or the values that evaluation has just come to, those
    that a task keeps, and those that a frame binds. -/
def Config.values (c : Config) : List Value :=
  c.focus.values ++ c.tasks.flatMap Task.values ++ c.session.frames.values

structure Focus.Has (P : Properties) (f : Focus) : Prop where
  values : ∀ v ∈ f.values, P.value v
  exprs : ∀ e ∈ f.exprs, P.expr e
  stop : ∀ e, f = .done (.error e) → P.stop e

structure Task.Has (P : Properties) (t : Task) : Prop where
  values : ∀ v ∈ t.values, P.value v
  exprs : ∀ e ∈ t.exprs, P.expr e

structure Config.Has (P : Properties) (c : Config) : Prop where
  focus : c.focus.Has P
  tasks : ∀ t ∈ c.tasks, t.Has P
  session : c.session.Has P

theorem Config.Has.mem_values {c : Config} (h : c.Has P) {v : Value} (hv : v ∈ c.values) : P.value v := by
  rcases List.mem_append.mp hv with hv | hv
  · rcases List.mem_append.mp hv with hv | hv
    · exact h.focus.values v hv
    · obtain ⟨t, ht, hv⟩ := List.mem_flatMap.mp hv
      exact (h.tasks t ht).values v hv
  · exact h.session.values v hv

theorem Focus.Has.expr {budget : Nat} {e : Expr} (he : P.expr e) : (Focus.expr budget e).Has P :=
  ⟨fun _ hv => (nomatch hv), List.forall_mem_singleton.mpr he, fun _ h => (nomatch h)⟩

theorem Focus.Has.items {use : Use} {budget : Nat} {values : List Value} {rest : List Expr}
    (hvalues : ∀ v ∈ values, P.value v) (hrest : ∀ e ∈ rest, P.expr e) : (Focus.items use budget values rest).Has P :=
  ⟨hvalues, hrest, fun _ h => (nomatch h)⟩

theorem Focus.Has.slots {budget : Nat} {rest : List Expr} {body : Expr} (h : ∀ e ∈ rest ++ [body], P.expr e) :
    (Focus.slots budget rest body).Has P :=
  ⟨fun _ hv => (nomatch hv), h, fun _ h => (nomatch h)⟩

theorem Focus.Has.stopped {e : Stop} (h : P.stop e) : (Focus.done (.error e)).Has P :=
  ⟨fun _ hv => (nomatch hv), fun _ he => (nomatch he), fun _ he => by cases he; exact h⟩

theorem Focus.Has.value {v : Value} (h : P.value v) : (Focus.done (.ok v)).Has P :=
  ⟨List.forall_mem_singleton.mpr h, fun _ he => (nomatch he), fun _ he => (nomatch he)⟩

theorem Task.Has.of_exprs {t : Task} (hvalues : t.values = []) (h : ∀ e ∈ t.exprs, P.expr e) : t.Has P := by
  refine ⟨?_, h⟩
  simp [hvalues]

/-! ## Actions -/

/-- The properties that an evaluation keeps. Of the stops only the one at a symbol without
    a value needs looking at, which spells the symbol as the line does. -/
structure Kept (P : Properties) (host : Host) (src : Source) : Prop where
  item : ∀ {span : Span} {b : Bracket} {items : List Expr} {e : Expr}, P.expr (.group span b items) → e ∈ items → P.expr e
  atom : ∀ {span : Span} {a : Atom} {s : Session} {v : Value}, P.expr (.atom span a) → (∀ name, a ≠ .symbol name) →
    (evalAtom src span a s).1 = .ok v → P.value v
  vector : ∀ {vs : List Value}, (∀ v ∈ vs, P.value v) → P.value (.vector vs)
  call : ∀ (f : Function) (budget : Nat) {names : NameTable} {args : List Value}, P.names names → (∀ v ∈ args, P.value v) →
    (∀ v, (f.call host.functions budget names args).1 = .value v → P.value v) ∧ P.names (f.call host.functions budget names args).2
  stop : ∀ {e : Stop}, (∀ span spelling, e = .error ⟨span, .unbound spelling⟩ → spelling = src.slice span) → P.stop e

/-- An action that keeps the properties, whatever its outcome, and has a result of `Q`. -/
def Keeps {α : Type} (P : Properties) (Q : α → Prop) (m : EvalM α) : Prop :=
  ∀ s : Session, s.Has P → (m s).2.Has P ∧ (∀ a, (m s).1 = .ok a → Q a) ∧ ∀ e, (m s).1 = .error e → P.stop e

/-- An atom that is no symbol looks at no binding, and stops at faults only. -/
theorem evalAtom_literal (src : Source) (span : Span) {a : Atom} (h : ∀ name, a ≠ .symbol name) :
    ∃ r, (∀ s, evalAtom src span a s = (r, s)) ∧ ∀ e, r = .error e → ∃ f, e = .fault f := by
  cases a with
  | symbol name => exact absurd rfl (h name)
  | string =>
    simp only [evalAtom]
    cases Span.of? (span.lo + 1) (span.hi - 1) with
    | some inner => exact ⟨_, fun s => rfl, fun e he => by cases he⟩
    | none => exact ⟨_, fun s => rfl, fun e he => by cases he; exact ⟨_, rfl⟩⟩
  | bool b | integer n | keyword name | nil => exact ⟨_, fun s => rfl, fun e he => by cases he⟩
  | operator op | unknown kind => exact ⟨_, fun s => rfl, fun e he => by cases he; exact ⟨_, rfl⟩⟩

section

variable {host : Host} {src : Source} (hP : Kept P host src)

include hP

theorem keeps_fail {α : Type} {Q : α → Prop} (span : Span) {cause : EvalCause} (h : ∀ spelling, cause ≠ .unbound spelling) :
    Keeps P Q (fail span cause : EvalM α) := by
  intro s hs
  refine ⟨hs, fun a ha => (nomatch ha), fun e he => ?_⟩
  cases he
  apply hP.stop
  intro at_ spelling he
  cases he
  exact absurd rfl (h spelling)

theorem keeps_spend (budget cost : Nat) : Keeps P (fun _ => True) (spend budget cost) := by
  intro s hs
  rw [spend_run]
  split
  · refine ⟨hs, fun _ _ => trivial, fun e he => ?_⟩
    cases he
    exact hP.stop fun _ _ h => nomatch h
  · exact ⟨hs, fun _ _ => trivial, fun e he => nomatch he⟩

theorem keeps_nameOf (e : Expr) : Keeps P (fun _ => True) (nameOf e) := by
  obtain ⟨span, name, rfl⟩ | hn := nameOf_cases e
  · exact fun s hs => ⟨hs, fun _ _ => trivial, fun e he => nomatch he⟩
  · rw [hn]
    exact keeps_fail hP _ fun _ h => nomatch h

theorem keeps_lookup (span : Span) (name : Name) : Keeps P P.value (lookup src span name) := by
  intro s hs
  rw [lookup_run]
  split
  · refine ⟨hs, fun v hv => ?_, fun e he => nomatch he⟩
    cases hv
    exact hs.get? ‹_›
  · refine ⟨hs, fun v hv => (nomatch hv), fun e he => ?_⟩
    cases he
    apply hP.stop
    intro at_ spelling he
    cases he
    rfl

theorem keeps_evalAtom {span : Span} {a : Atom} (ha : P.expr (.atom span a)) : Keeps P P.value (evalAtom src span a) := by
  by_cases hsymbol : ∃ name, a = .symbol name
  · obtain ⟨name, rfl⟩ := hsymbol
    exact keeps_lookup hP span name
  · have hliteral : ∀ name, a ≠ .symbol name := fun name h => hsymbol ⟨name, h⟩
    obtain ⟨r, hrun, hfault⟩ := evalAtom_literal src span hliteral
    intro s hs
    have hvalue : ∀ v, (evalAtom src span a s).1 = .ok v → P.value v := fun v => hP.atom ha hliteral
    rw [hrun] at hvalue ⊢
    refine ⟨hs, hvalue, fun e he => ?_⟩
    obtain ⟨f, rfl⟩ := hfault e he
    exact hP.stop fun _ _ h => nomatch h

theorem keeps_define (budget : Nat) (target : Span) (name : Name) {v : Value} (hv : P.value v) :
    Keeps P (fun _ => True) (define host budget src target name v) := by
  intro s hs
  rw [define_run]
  split
  · refine ⟨hs.bind name hv, fun _ _ => trivial, fun e he => ?_⟩
    cases he
    exact hP.stop fun _ _ h => nomatch h
  · exact ⟨(hs.bind name hv).note _, fun _ _ => trivial, fun e he => nomatch he⟩

theorem keeps_enterFrame (budget : Nat) : Keeps P (fun _ => True) (enterFrame host budget) := by
  intro s hs
  rw [enterFrame_run]
  split
  · refine ⟨hs.enter, fun _ _ => trivial, fun e he => ?_⟩
    cases he
    exact hP.stop fun _ _ h => nomatch h
  · exact ⟨hs.enter.note _, fun _ _ => trivial, fun e he => nomatch he⟩

theorem keeps_call (budget : Nat) (span : Span) (f : Function) {args : List Value} (h : ∀ v ∈ args, P.value v) :
    Keeps P P.value (call host budget span f args) := by
  intro s hs
  rw [call_run]
  obtain ⟨hvalue, hnames⟩ := hP.call f budget hs.names h
  generalize f.call host.functions budget s.names args = x at hvalue hnames
  obtain ⟨reply, names⟩ := x
  simp only
  split
  · refine ⟨hs.setTable hnames, fun v hv => (nomatch hv), fun e he => ?_⟩
    cases he
    exact hP.stop fun _ _ h => nomatch h
  refine ⟨hs.setNames hnames, fun v hv => ?_, fun e he => hP.stop ?_⟩
  · cases reply with
    | value w => cases hv; exact hvalue v rfl
    | noValue | exhausted | fault f => cases hv
  · intro at_ spelling hspelt
    subst hspelt
    cases reply <;> cases he

theorem keeps_finish (budget : Nat) (use : Use) {values : List Value} (h : ∀ v ∈ values, P.value v) :
    Keeps P P.value (use.finish host budget values) := by
  cases use with
  | vector =>
    intro s hs
    refine ⟨hs, fun v hv => ?_, fun e he => nomatch he⟩
    cases hv
    exact hP.vector h
  | call span f => exact keeps_call hP budget span f h

end

theorem refusal?_ne_unbound {span blamed : Span} {items : List Expr} {cause : EvalCause}
    (h : refusal? span items = some (blamed, cause)) (spelling : List Char) : cause ≠ .unbound spelling := by
  rintro rfl
  unfold refusal? at h
  repeat' split at h
  all_goals cases h

/-! ## Steps -/

section

variable {host : Host} {src : Source} (hP : Kept P host src) {k : List Task} {s : Session}

theorem outcome_has {m : EvalM Value} (hm : Keeps P P.value m) (hk : ∀ t ∈ k, t.Has P) (hs : s.Has P) :
    (outcome m k s).Has P := by
  obtain ⟨ht, hvalue, hstop⟩ := hm s hs
  refine ⟨?_, hk, ht⟩
  show (Focus.done (m s).1).Has P
  generalize (m s).1 = r at hvalue hstop
  cases r with
  | error e => exact .stopped (hstop e rfl)
  | ok v => exact .value (hvalue v rfl)

theorem after_has {α : Type} {Q : α → Prop} {m : EvalM α} {next : α → Session → Config} (hm : Keeps P Q m)
    (hk : ∀ t ∈ k, t.Has P) (hs : s.Has P) (h : ∀ a t, Q a → t.Has P → (next a t).Has P) : (after m k s next).Has P := by
  obtain ⟨ht, hresult, hstop⟩ := hm s hs
  unfold after
  generalize m s = x at ht hresult hstop
  obtain ⟨e | a, t⟩ := x
  · exact ⟨.stopped (hstop e rfl), hk, ht⟩
  · exact h a t (hresult a rfl) ht

include hP

theorem define_has {span head : Span} {target value : Expr} (budget : Nat)
    (h : P.expr (.group span .round [.atom head (.operator .define), target, value])) (hk : ∀ t ∈ k, t.Has P)
    (hs : s.Has P) :
    (after (spend budget formCost) k s fun left t => after (nameOf target) k t fun name u =>
      ⟨.expr left value, .define left target.span name :: k, u⟩).Has P := by
  have hvalue : P.expr value := hP.item h (by simp)
  refine after_has (keeps_spend hP _ _) hk hs fun left t _ ht => ?_
  refine after_has (keeps_nameOf hP target) hk ht fun name u _ hu => ?_
  have htask : (Task.define left target.span name).Has P := .of_exprs rfl fun _ h => nomatch h
  exact ⟨.expr hvalue, List.forall_mem_cons.mpr ⟨htask, hk⟩, hu⟩

theorem choose_has {span head : Span} {condition yes no : Expr} (budget : Nat)
    (h : P.expr (.group span .round [.atom head (.operator .choose), condition, yes, no])) (hk : ∀ t ∈ k, t.Has P)
    (hs : s.Has P) :
    (after (spend budget formCost) k s fun left t => ⟨.expr left condition, .choose left yes no :: k, t⟩).Has P := by
  have hcondition : P.expr condition := hP.item h (by simp)
  refine after_has (keeps_spend hP _ _) hk hs fun left t _ ht => ?_
  have htask : (Task.choose left yes no).Has P := by
    refine .of_exprs rfl fun e he => hP.item h ?_
    exact List.mem_cons_of_mem _ (List.mem_cons_of_mem _ he)
  exact ⟨.expr hcondition, List.forall_mem_cons.mpr ⟨htask, hk⟩, ht⟩

theorem bind_has {span head at_ : Span} {b : Bracket} {slots : List Expr} {body : Expr} (budget : Nat)
    (h : P.expr (.group span .round [.atom head (.operator .bind), .group at_ b slots, body])) (hk : ∀ t ∈ k, t.Has P)
    (hs : s.Has P) :
    (after (spend budget formCost) k s fun left t => after (enterFrame host left) k t fun mark u =>
      ⟨.slots left slots body, .frame mark :: k, u⟩).Has P := by
  have hslots : P.expr (.group at_ b slots) := hP.item h (by simp)
  have hbody : P.expr body := hP.item h (by simp)
  refine after_has (keeps_spend hP _ _) hk hs fun left t _ ht => ?_
  refine after_has (keeps_enterFrame hP left) hk ht fun mark u _ hu => ?_
  have htask : (Task.frame mark).Has P := .of_exprs rfl fun _ h => nomatch h
  refine ⟨.slots fun e he => ?_, List.forall_mem_cons.mpr ⟨htask, hk⟩, hu⟩
  rcases List.mem_append.mp he with he | he
  · exact hP.item hslots he
  · exact List.mem_singleton.mp he ▸ hbody

theorem call_has {span head : Span} {name : Name} {args : List Expr} (budget : Nat)
    (h : P.expr (.group span .round (.atom head (.symbol name) :: args))) (hk : ∀ t ∈ k, t.Has P) (hs : s.Has P) :
    (after (lookup src head name) k s fun v t => match v with
      | .function f => after (spend budget callCost) k t fun left u => ⟨.items (.call span f) left [] args, k, u⟩
      | _ => outcome (fail head .notAFunction) k t).Has P := by
  refine after_has (keeps_lookup hP head name) hk hs fun v t _ ht => ?_
  cases v with
  | function f =>
    refine after_has (keeps_spend hP _ _) hk ht fun left u _ hu => ⟨?_, hk, hu⟩
    exact .items (fun _ h => (nomatch h)) fun e he => hP.item h (List.mem_cons_of_mem _ he)
  | _ => exact outcome_has (keeps_fail hP _ fun _ h => nomatch h) hk ht

/-- One step keeps the properties. -/
theorem Step.keeps {c d : Config} (hstep : Step host src c d) (hc : c.Has P) : d.Has P := by
  obtain ⟨hfocus, hk, hs⟩ := hc
  cases hstep with
  | atom => exact outcome_has (keeps_evalAtom hP (hfocus.exprs _ List.mem_cons_self)) hk hs
  | vector =>
    have hitems := hfocus.exprs _ List.mem_cons_self
    refine after_has (keeps_spend hP _ _) hk hs fun left t _ ht => ⟨?_, hk, ht⟩
    exact .items (fun _ h => (nomatch h)) fun e he => hP.item hitems he
  | refused h => exact outcome_has (keeps_fail hP _ (refusal?_ne_unbound h)) hk hs
  | define => exact define_has hP _ (hfocus.exprs _ List.mem_cons_self) hk hs
  | choose => exact choose_has hP _ (hfocus.exprs _ List.mem_cons_self) hk hs
  | bind => exact bind_has hP _ (hfocus.exprs _ List.mem_cons_self) hk hs
  | call => exact call_has hP _ (hfocus.exprs _ List.mem_cons_self) hk hs
  | item =>
    obtain ⟨he, hrest⟩ := List.forall_mem_cons.mp hfocus.exprs
    exact ⟨.expr he, List.forall_mem_cons.mpr ⟨⟨hfocus.values, hrest⟩, hk⟩, hs⟩
  | @taken v =>
    obtain ⟨htask, hk⟩ := List.forall_mem_cons.mp hk
    refine ⟨.items (fun w hw => ?_) htask.exprs, hk, hs⟩
    rcases List.mem_append.mp hw with hw | hw
    · exact htask.values w hw
    · exact hfocus.values w hw
  | @finished use budget values => exact outcome_has (keeps_finish hP budget use hfocus.values) hk hs
  | @defined v budget target name =>
    obtain ⟨-, hk⟩ := List.forall_mem_cons.mp hk
    have hv : P.value v := hfocus.values v List.mem_cons_self
    exact after_has (keeps_define hP budget target name hv) hk hs fun _ t _ ht => ⟨hfocus, hk, ht⟩
  | @chosen v _ yes no =>
    obtain ⟨htask, hk⟩ := List.forall_mem_cons.mp hk
    refine ⟨.expr (htask.exprs _ ?_), hk, hs⟩
    cases v.isTruthy <;> simp [Task.exprs]
  | @slot budget target value rest body =>
    have hslots := hfocus.exprs
    have hvalue : P.expr value := hslots value (by simp [Focus.exprs])
    refine after_has (keeps_nameOf hP target) hk hs fun name t _ ht => ?_
    have htask : (Task.slot budget name rest body).Has P := by
      refine .of_exprs rfl fun e he => hslots e ?_
      exact List.mem_cons_of_mem _ (List.mem_cons_of_mem _ he)
    exact ⟨.expr hvalue, List.forall_mem_cons.mpr ⟨htask, hk⟩, ht⟩
  | @bound v _ name =>
    obtain ⟨htask, hk⟩ := List.forall_mem_cons.mp hk
    exact ⟨.slots htask.exprs, hk, hs.bind name (hfocus.values v List.mem_cons_self)⟩
  | @body _ slots body =>
    have hbody : P.expr body := hfocus.exprs body (by simp [Focus.exprs])
    exact ⟨.expr hbody, hk, hs⟩
  | @left r mark =>
    obtain ⟨-, hk⟩ := List.forall_mem_cons.mp hk
    refine ⟨?_, hk, hs.leave mark⟩
    show (Focus.done (if _ then r else _)).Has P
    split
    · exact hfocus
    · exact .stopped (hP.stop fun _ _ h => nomatch h)
  | stopped _ =>
    obtain ⟨-, hk⟩ := List.forall_mem_cons.mp hk
    exact ⟨hfocus, hk, hs⟩

/-- Every point of an evaluation has the properties. -/
theorem Runs.keeps {c d : Config} (h : Runs host src c d) (hc : c.Has P) : d.Has P := by
  induction h with
  | refl => exact hc
  | tail _ hstep ih => exact hstep.keeps hP ih

/-- Evaluation keeps the properties, however it ends. -/
theorem keeps_eval (budget : Nat) {e : Expr} (he : P.expr e) : Keeps P P.value (eval host src budget e) := by
  intro s hs
  have hstart : (Config.mk (.expr budget e) [] s).Has P := ⟨.expr he, fun t ht => (nomatch ht), hs⟩
  obtain ⟨hfocus, -, ht⟩ := Runs.keeps hP (runs_eval host src budget e [] s) hstart
  refine ⟨ht, fun v hv => ?_, fun stop hstop => hfocus.stop stop (congrArg Focus.done hstop)⟩
  apply hfocus.values
  simp only [outcome, hv, Focus.values, List.mem_singleton]

end

end Eval

end LineLisp
