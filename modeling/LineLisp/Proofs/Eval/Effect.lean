/-
  LineLisp.Proofs.Eval.Effect — what evaluation does to the frames, however it ends.

  It writes names into the topmost frame and does nothing else (`Writes`): a frame that
  it enters it also leaves, with all that was written there. The names are those of
  the definitions that stand outside every `let` (`DefinesOutsideLet`), so an
  expression without such definitions leaves the frames as they were.

  There is one exception. Where records take stack there may be none for the record of a
  new frame. Then that frame stays, every `let` around it leaves the frame that the one
  inside has not left, and in the end there is one frame more than before (`Strays`).
-/

import LineLisp.Proofs.Eval.Shapes

namespace LineLisp

/-! ## Writing into the topmost frame -/

namespace FrameStack

variable {κ ν : Type}

/-- The topmost frame. -/
def top (s : FrameStack κ ν) : Frame κ ν := s.upper.headD s.bottom

/-- The frames below the topmost one. -/
def below (s : FrameStack κ ν) : List (Frame κ ν) := s.frames.tail

theorem depth_eq_below (s : FrameStack κ ν) : s.depth = s.below.length + 1 := by
  simp [depth, below, frames]

variable [DecidableEq κ]

theorem top_insert (s : FrameStack κ ν) (k : κ) (v : ν) : (s.insert k v).top = s.top.insert k v := by
  rcases s with ⟨bottom, _ | ⟨f, rest⟩⟩ <;> rfl

theorem below_insert (s : FrameStack κ ν) (k : κ) (v : ν) : (s.insert k v).below = s.below := by
  rcases s with ⟨bottom, _ | ⟨f, rest⟩⟩ <;> rfl

/-- What is written above a frame stays above it. -/
theorem insertAll_push (s : FrameStack κ ν) (f : Frame κ ν) (pairs : List (κ × ν)) :
    (s.push f).insertAll pairs = s.push (f.insertAll pairs) := by
  induction pairs generalizing f with
  | nil => rfl
  | cons p pairs ih => exact ih (f.insert p.1 p.2)

/-- The second stack is the first with names of `P` written into its topmost frame. -/
def Writes (P : κ → Prop) (s t : FrameStack κ ν) : Prop :=
  ∃ pairs : List (κ × ν), (∀ p ∈ pairs, P p.1) ∧ t = s.insertAll pairs

namespace Writes

variable {P Q : κ → Prop} {s t u : FrameStack κ ν}

theorem refl (P : κ → Prop) (s : FrameStack κ ν) : Writes P s s :=
  ⟨[], fun _ h => absurd h List.not_mem_nil, rfl⟩

theorem insert {k : κ} (h : P k) (s : FrameStack κ ν) (v : ν) : Writes P s (s.insert k v) :=
  ⟨[(k, v)], fun p hp => by rw [List.mem_singleton.mp hp]; exact h, rfl⟩

theorem trans (h : Writes P s t) (h' : Writes P t u) : Writes P s u := by
  obtain ⟨ps, hp, rfl⟩ := h
  obtain ⟨qs, hq, rfl⟩ := h'
  refine ⟨ps ++ qs, fun p hm => ?_, (List.foldl_append ..).symm⟩
  rcases List.mem_append.mp hm with hm | hm
  · exact hp p hm
  · exact hq p hm

theorem mono (h : Writes P s t) (hpq : ∀ k, P k → Q k) : Writes Q s t := by
  obtain ⟨ps, hp, ht⟩ := h
  exact ⟨ps, fun p hm => hpq p.1 (hp p hm), ht⟩

/-- What is written above a frame is written into the frame above it. -/
theorem of_push {f : Frame κ ν} (h : Writes P (s.push f) t) : ∃ g, t = s.push g := by
  obtain ⟨pairs, -, rfl⟩ := h
  exact ⟨f.insertAll pairs, insertAll_push s f pairs⟩

/-- No writing changes nothing. -/
theorem eq_of_forall_not (h : Writes P s t) (hn : ∀ k, ¬ P k) : t = s := by
  obtain ⟨ps, hp, rfl⟩ := h
  cases ps with
  | nil => rfl
  | cons p ps => exact absurd (hp p (by simp)) (hn p.1)

theorem below_eq (h : Writes P s t) : t.below = s.below := by
  obtain ⟨ps, -, rfl⟩ := h
  induction ps generalizing s with
  | nil => rfl
  | cons p ps ih => exact ih.trans (below_insert s p.1 p.2)

theorem depth_eq (h : Writes P s t) : t.depth = s.depth := by
  rw [depth_eq_below, depth_eq_below, h.below_eq]

/-- A bound name stays bound. -/
theorem contains_top (h : Writes P s t) {k : κ} (hk : s.top.contains k = true) : t.top.contains k = true := by
  obtain ⟨ps, -, rfl⟩ := h
  induction ps generalizing s with
  | nil => exact hk
  | cons p ps ih =>
    refine ih ?_
    rw [top_insert, Frame.contains, Frame.get?_insert]
    split
    · rfl
    · exact hk

/-- Only what is written is bound anew. -/
theorem get?_top (h : Writes P s t) {k : κ} (hk : ¬ P k) : t.top.get? k = s.top.get? k := by
  obtain ⟨ps, hp, rfl⟩ := h
  induction ps generalizing s with
  | nil => rfl
  | cons p ps ih =>
    have hne : k ≠ p.1 := fun e => hk (e ▸ hp p (by simp))
    refine (ih fun q hq => hp q (by simp [hq])).trans ?_
    rw [top_insert, Frame.get?_insert, if_neg hne]

end Writes

end FrameStack

/-! ## Definitions outside every `let` -/

namespace Expr

def isLet : Expr → Bool
  | group _ .round (atom _ (.operator .bind) :: _) => true
  | _ => false

/-- An expression occurs in another and in no `let` of that. -/
inductive OccursOutsideLet : Expr → Expr → Prop
  | self (e : Expr) : OccursOutsideLet e e
  | item {d e : Expr} {span : Span} {b : Bracket} {items : List Expr} : e ∈ items →
      (group span b items).isLet = false → OccursOutsideLet d e → OccursOutsideLet d (group span b items)

/-- A form `(def name …)` occurs in the expression and in no `let`. -/
def DefinesOutsideLet (e : Expr) (name : Name) : Prop :=
  ∃ span head target rest, OccursOutsideLet
    (group span .round (atom head (.operator .define) :: atom target (.symbol name) :: rest)) e

theorem DefinesOutsideLet.item {e : Expr} {name : Name} (h : e.DefinesOutsideLet name) {span : Span}
    {b : Bracket} {items : List Expr} (he : e ∈ items) (hl : (group span b items).isLet = false) :
    (group span b items).DefinesOutsideLet name := by
  obtain ⟨span', head, target, rest, ho⟩ := h
  exact ⟨span', head, target, rest, .item he hl ho⟩

end Expr

/-! ## Evaluation -/

namespace Eval

open FrameStack

/-- The outcomes that there are where a record had no stack: that it had none, and that a
    frame was left which was not the last one entered. -/
structure RanShort {α : Type} (host : Host) (r : Except Stop α) : Prop where
  cost : 0 < host.recordCost
  stop : r = .error .exhausted ∨ r = .error (.fault .framesOutOfOrder)

section

variable {α β : Type} {host : Host} {P Q : Name → Prop}

theorem not_ranShort_ok {a : α} : ¬ RanShort host (.ok a) := by
  rintro ⟨-, h | h⟩ <;> cases h

/-- Records that take no stack always have it. -/
theorem not_ranShort_quiet {hosts : Hosts} {r : Except Stop α} : ¬ RanShort hosts r :=
  fun h => absurd h.cost (Nat.lt_irrefl 0)

theorem ranShort_exhausted {budget : Nat} (h : budget < host.recordCost) : RanShort host (.error .exhausted : Except Stop α) :=
  ⟨Nat.zero_lt_of_lt h, Or.inl rfl⟩

theorem RanShort.outOfOrder {r : Except Stop α} (h : RanShort host r) :
    RanShort host (.error (.fault .framesOutOfOrder) : Except Stop β) := ⟨h.cost, Or.inr rfl⟩

theorem RanShort.error {e : Stop} (h : RanShort host (.error e : Except Stop α)) : RanShort host (.error e : Except Stop β) := by
  refine ⟨h.cost, h.stop.imp ?_ ?_⟩
  all_goals rintro ⟨⟩; rfl

/-- An action that ran short of stack has left one frame more than there were, above what it
    has written. -/
structure Strays (host : Host) (P : Name → Prop) (frames : FrameStack Name Value) (x : Except Stop α × Session) : Prop where
  short : RanShort host x.1
  frames : ∃ u f, Writes P frames u ∧ x.2.frames = u.push f

/-- An action that writes names of `P` into the topmost frame and leaves the other frames
    alone, whatever its outcome, unless it strays. -/
def Confined (host : Host) (P : Name → Prop) (m : EvalM α) : Prop :=
  ∀ s, Writes P s.frames (m s).2.frames ∨ Strays host P s.frames (m s)

theorem Confined.of_writes {m : EvalM α} (h : ∀ s, Writes P s.frames (m s).2.frames) : Confined host P m :=
  fun s => Or.inl (h s)

/-- Where records take no stack, nothing strays. -/
theorem Confined.writes {hosts : Hosts} {m : EvalM α} (h : Confined hosts P m) (s : Session) :
    Writes P s.frames (m s).2.frames :=
  (h s).resolve_right fun hs => not_ranShort_quiet hs.short

theorem Confined.mono {m : EvalM α} (h : Confined host P m) (hpq : ∀ k, P k → Q k) : Confined host Q m := by
  intro s
  refine (h s).imp (·.mono hpq) fun ⟨hshort, u, f, hu, hf⟩ => ⟨hshort, u, f, hu.mono hpq, hf⟩

theorem confined_pure (a : α) : Confined host P (pure a : EvalM α) := .of_writes fun s => .refl P s.frames

theorem confined_throw (e : Stop) : Confined host P (throw e : EvalM α) := .of_writes fun s => .refl P s.frames

theorem confined_fail (span : Span) (cause : EvalCause) : Confined host P (fail span cause : EvalM α) :=
  confined_throw _

theorem Strays.trans {s : FrameStack Name Value} {t : Session} {x : Except Stop α × Session} (h : Writes P s t.frames)
    (hx : Strays host P t.frames x) : Strays host P s x := by
  obtain ⟨hshort, u, f, hu, hf⟩ := hx
  exact ⟨hshort, u, f, h.trans hu, hf⟩

theorem confined_bind {m : EvalM α} {f : α → EvalM β} (hm : Confined host P m) (hf : ∀ a, Confined host P (f a)) :
    Confined host P (m >>= f) := by
  intro s
  have h := hm s
  rw [bind_run]
  rcases hs : m s with ⟨e | a, t⟩
  · rw [hs] at h
    exact h.imp_right fun ⟨hshort, u, g, hu, hg⟩ => ⟨hshort.error, u, g, hu, hg⟩
  · rw [hs] at h
    have hwrites : Writes P s.frames t.frames := h.resolve_right fun hstray => not_ranShort_ok hstray.short
    exact (hf a t).imp hwrites.trans (Strays.trans hwrites)

theorem confined_spend (budget cost : Nat) : Confined host P (spend budget cost) := by
  unfold spend
  split
  · exact confined_throw _
  · exact confined_pure _

theorem confined_lookup (src : Source) (span : Span) (name : Name) : Confined host P (lookup src span name) := by
  refine .of_writes fun s => ?_
  rw [lookup_run]
  split <;> exact .refl P s.frames

theorem confined_evalAtom (src : Source) (span : Span) (a : Atom) : Confined host P (evalAtom src span a) := by
  cases a with
  | symbol name => exact confined_lookup src span name
  | string =>
    simp only [evalAtom]
    split
    · exact confined_pure _
    · exact confined_throw _
  | _ => first | exact confined_pure _ | exact confined_throw _

theorem confined_nameOf (e : Expr) : Confined host P (nameOf e) := by
  unfold nameOf
  split
  · exact confined_pure _
  · exact confined_fail _ _

theorem confined_call (budget : Nat) (span : Span) (f : Function) (args : List Value) :
    Confined host P (call host budget span f args) := by
  refine .of_writes fun s => ?_
  rw [call_run]
  rcases f.call host.functions budget s.names args with ⟨reply, names⟩
  simp only
  split <;> exact .refl P s.frames

/-- A name is bound also where there is no stack to record that. -/
theorem confined_define (budget : Nat) (src : Source) (target : Span) {name : Name} (h : P name) (v : Value) :
    Confined host P (define host budget src target name v) := by
  refine .of_writes fun s => ?_
  rw [define_run]
  split <;> exact .insert h s.frames v

theorem confined_bindName {name : Name} (h : P name) (v : Value) : Confined host P (bindName name v) :=
  .of_writes fun s => .insert h s.frames v

theorem frames_entered (s : Session) : (entered s).frames = s.frames.push .empty := rfl

theorem depth_of_push {s t : Session} {f : Frame Name Value} (h : t.frames = s.frames.push f) : t.depth = s.depth + 1 := by
  rw [Session.depth, h]
  rfl

theorem depth_of_push_push {s t : Session} {f g : Frame Name Value} (h : t.frames = (s.frames.push f).push g) :
    t.depth = s.depth + 2 := by
  rw [Session.depth, h]
  rfl

/-- How an action ends that is run in a new frame. -/
inductive FrameEnd (host : Host) (budget : Nat) (m : EvalM α) (s : Session) : Prop
  /-- There is no stack for the record, so the action is not run and the frame stays. -/
  | unrecorded : budget < host.recordCost → inFrame host budget m s = (.error .exhausted, s.enter.2) →
      FrameEnd host budget m s
  /-- The new frame is left again, with all that was written in it. -/
  | left (f : Frame Name Value) : host.recordCost ≤ budget → (m (entered s)).2.frames = s.frames.push f →
      inFrame host budget m s = ((m (entered s)).1, ((m (entered s)).2.leave s.enter.1).2) →
      (inFrame host budget m s).2.frames = s.frames → FrameEnd host budget m s
  /-- The action has left a frame of its own, which is taken off in place of the new one. -/
  | strayed (f g : Frame Name Value) : host.recordCost ≤ budget → RanShort host (m (entered s)).1 →
      (m (entered s)).2.frames = (s.frames.push f).push g →
      inFrame host budget m s = (.error (.fault .framesOutOfOrder), ((m (entered s)).2.leave s.enter.1).2) →
      (inFrame host budget m s).2.frames = s.frames.push f → FrameEnd host budget m s

theorem Confined.frameEnd {m : EvalM α} (h : Confined host Q m) (budget : Nat) (s : Session) : FrameEnd host budget m s := by
  have hrun := inFrame_run host budget m s
  by_cases hroom : budget < host.recordCost
  · rw [if_pos hroom] at hrun
    exact .unrecorded hroom hrun
  rw [if_neg hroom, leaving_run] at hrun
  have hpop : (inFrame host budget m s).2.frames = (m (entered s)).2.frames.pop := by
    rw [hrun, Session.frames_leave]
  rcases h (entered s) with hwrites | ⟨hshort, u, g, hu, hg⟩
  · obtain ⟨f, hf⟩ := hwrites.of_push
    have hdepth : (m (entered s)).2.depth = s.enter.1 := hwrites.depth_eq
    rw [if_pos hdepth] at hrun
    exact .left f (Nat.le_of_not_lt hroom) hf hrun (by rw [hpop, hf, pop_push])
  · obtain ⟨f, rfl⟩ := hu.of_push
    have hdepth : (m (entered s)).2.depth ≠ s.enter.1 := ne_of_eq_of_ne (depth_of_push_push hg) (Nat.succ_ne_self _)
    rw [if_neg hdepth] at hrun
    exact .strayed f g (Nat.le_of_not_lt hroom) hshort hg hrun (by rw [hpop, hg, pop_push])

theorem confined_inFrame {m : EvalM α} (budget : Nat) (h : Confined host Q m) : Confined host P (inFrame host budget m) := by
  intro s
  cases h.frameEnd budget s with
  | unrecorded hroom hrun => rw [hrun]; exact Or.inr ⟨ranShort_exhausted hroom, s.frames, .empty, .refl P s.frames, rfl⟩
  | left f _ _ _ hframes => rw [hframes]; exact Or.inl (.refl P s.frames)
  | strayed f g _ hshort _ hrun hframes =>
    exact Or.inr ⟨by rw [hrun]; exact hshort.outOfOrder, s.frames, f, .refl P s.frames, hframes⟩

end

/-! ### Forms -/

section

variable (host : Host) (src : Source) (budget : Nat) {span head : Span}

theorem confined_defineForm {target value : Expr}
    (hvalue : ∀ b, Confined host value.DefinesOutsideLet (eval host src b value)) :
    let form := Expr.group span .round [.atom head (.operator .define), target, value]
    Confined host form.DefinesOutsideLet (eval host src budget form) := by
  intro form
  rw [eval]
  refine confined_bind (confined_spend _ _) fun b => ?_
  obtain ⟨at_, name, rfl⟩ | hn := nameOf_cases target
  · have hname : form.DefinesOutsideLet name := ⟨span, head, at_, [value], .self _⟩
    show Confined host _ (eval host src b value >>= fun v => define host b src at_ name v >>= fun _ => pure v)
    refine confined_bind ((hvalue b).mono fun k hk => hk.item (by simp) rfl) fun v => ?_
    exact confined_bind (confined_define b src at_ hname v) fun _ => confined_pure v
  · rw [hn]
    exact confined_fail _ _

theorem confined_chooseForm {condition yes no : Expr}
    (hcondition : ∀ b, Confined host condition.DefinesOutsideLet (eval host src b condition))
    (hyes : ∀ b, Confined host yes.DefinesOutsideLet (eval host src b yes))
    (hno : ∀ b, Confined host no.DefinesOutsideLet (eval host src b no)) :
    let form := Expr.group span .round [.atom head (.operator .choose), condition, yes, no]
    Confined host form.DefinesOutsideLet (eval host src budget form) := by
  intro form
  rw [eval]
  refine confined_bind (confined_spend _ _) fun b => ?_
  refine confined_bind ((hcondition b).mono fun k hk => hk.item (by simp) rfl) fun v => ?_
  split
  · exact (hyes b).mono fun k hk => hk.item (by simp) rfl
  · exact (hno b).mono fun k hk => hk.item (by simp) rfl

theorem confined_callForm {name : Name} {args : List Expr}
    (hargs : ∀ b, Confined host (fun k => ∃ e ∈ args, e.DefinesOutsideLet k) (evalEach host src b args)) :
    let form := Expr.group span .round (.atom head (.symbol name) :: args)
    Confined host form.DefinesOutsideLet (eval host src budget form) := by
  intro form
  rw [eval]
  refine confined_bind (confined_lookup _ _ _) fun v => ?_
  split
  · refine confined_bind (confined_spend _ _) fun b => ?_
    refine confined_bind ((hargs b).mono ?_) fun vs => confined_call _ _ _ _
    rintro k ⟨e, he, hk⟩
    exact hk.item (List.mem_cons_of_mem _ he) rfl
  · exact confined_fail _ _

/-- The part of a `let` that is evaluated in its frame. -/
theorem confined_letScope {slots : List Expr} {body : EvalM Value} (hbody : Confined host P body)
    (hslots : Confined host (fun _ => True) (evalBindings host src budget slots)) :
    Confined host (fun _ => True) (do evalBindings host src budget slots; body) :=
  confined_bind hslots fun _ => hbody.mono fun _ _ => trivial

end

/-- Evaluation is confined to the definitions outside every `let`. -/
theorem confined_evaluators (host : Host) (src : Source) :
    (∀ budget e, Confined host e.DefinesOutsideLet (eval host src budget e)) ∧
    (∀ budget es, Confined host (fun k => ∃ e ∈ es, e.DefinesOutsideLet k) (evalEach host src budget es)) ∧
    ∀ budget slots, Confined host (fun _ => True) (evalBindings host src budget slots) := by
  refine eval_induction ?atom ?vector ?refused ?define ?choose ?bind ?call ?nil ?cons ?slot ?done
  case atom =>
    intro budget span a
    rw [eval]
    exact confined_evalAtom src span a
  case vector =>
    intro budget span items ih
    rw [eval]
    refine confined_bind (confined_spend _ _) fun b => ?_
    refine confined_bind ((ih b).mono ?_) fun vs => confined_pure _
    rintro k ⟨e, he, hk⟩
    exact hk.item he rfl
  case refused =>
    intro budget span items blamed cause h
    rw [eval_refused host src budget h]
    exact confined_fail _ _
  case define => exact fun budget span head target value ih => confined_defineForm host src budget ih
  case choose =>
    exact fun budget span head condition yes no ihc ihy ihn => confined_chooseForm host src budget ihc ihy ihn
  case bind =>
    intro budget span head at_ b slots body heven ihs ihb
    rw [eval, if_pos heven]
    exact confined_bind (confined_spend _ _) fun b => confined_inFrame b (confined_letScope host src b (ihb b) (ihs b))
  case call => exact fun budget span head name args ih => confined_callForm host src budget ih
  case nil =>
    intro budget
    rw [evalEach]
    exact confined_pure _
  case cons =>
    intro budget e es ihe ihes
    rw [evalEach]
    refine confined_bind (ihe.mono fun k hk => ⟨e, by simp, hk⟩) fun v => ?_
    refine confined_bind (ihes.mono ?_) fun vs => confined_pure _
    rintro k ⟨f, hf, hk⟩
    exact ⟨f, List.mem_cons_of_mem e hf, hk⟩
  case slot =>
    intro budget target value rest ihv ihr
    rw [evalBindings]
    refine confined_bind (confined_nameOf _) fun name => ?_
    refine confined_bind (ihv.mono fun _ _ => trivial) fun v => ?_
    exact confined_bind (confined_bindName trivial v) fun _ => ihr
  case done =>
    intro budget slots hlen
    rw [evalBindings_done host src budget hlen]
    exact confined_pure ()

/-- However an evaluation ends, of the frames that it leaves there are as many as before and
    those below the topmost are the same; the topmost binds all that it bound, and binds anew
    only what is defined outside every `let`. Without such a definition nothing changes. These
    are all frames, unless a record ran short of stack: then there may be one frame more. -/
theorem eval_writes_only_outer_definitions (host : Host) (src : Source) (budget : Nat) (e : Expr) (s : Session) :
    let (result, t) := eval host src budget e s
    ∃ kept : FrameStack Name Value,
      (t.frames = kept ∨ RanShort host result ∧ ∃ stray, t.frames = kept.push stray) ∧
      kept.depth = s.frames.depth ∧ kept.below = s.frames.below ∧
      (∀ name, s.frames.top.contains name = true → kept.top.contains name = true) ∧
      (∀ name, kept.top.get? name ≠ s.frames.top.get? name → e.DefinesOutsideLet name) ∧
      ((∀ name, ¬ e.DefinesOutsideLet name) → kept = s.frames) := by
  have hspec : ∀ {kept : FrameStack Name Value}, Writes e.DefinesOutsideLet s.frames kept →
      kept.depth = s.frames.depth ∧ kept.below = s.frames.below ∧
      (∀ name, s.frames.top.contains name = true → kept.top.contains name = true) ∧
      (∀ name, kept.top.get? name ≠ s.frames.top.get? name → e.DefinesOutsideLet name) ∧
      ((∀ name, ¬ e.DefinesOutsideLet name) → kept = s.frames) := by
    intro kept h
    refine ⟨h.depth_eq, h.below_eq, fun name => h.contains_top, fun name hne => ?_, h.eq_of_forall_not⟩
    exact Classical.byContradiction fun hn => hne (h.get?_top hn)
  rcases (confined_evaluators host src).1 budget e s with hwrites | ⟨hshort, kept, stray, hwrites, hstray⟩
  · exact ⟨_, Or.inl rfl, hspec hwrites⟩
  · exact ⟨kept, Or.inr ⟨hshort, stray, hstray⟩, hspec hwrites⟩

/-- A frame stays that there is no stack to record, though `(let [] 1)` defines nothing. -/
theorem eval_let_strays :
    let e := Expr.group (Span.ofLength 0 10) .round
      [.atom (Span.ofLength 1 3) (.operator .bind), .group (Span.ofLength 5 2) .square [], .atom (Span.ofLength 8 1) (.integer 1)]
    let (result, t) := eval ⟨Hosts.none, 13⟩ ⟨"(let [] 1)".toList, 0⟩ 15 e .empty
    result = .error .exhausted ∧ Session.empty.depth = 1 ∧ t.depth = 2 ∧ ∀ name, ¬ e.DefinesOutsideLet name := by
  refine ⟨rfl, rfl, rfl, fun name hdefines => ?_⟩
  obtain ⟨span, head, target, rest, hoccurs⟩ := hdefines
  cases hoccurs with
  | item _ hlet => cases hlet

end Eval

end LineLisp
