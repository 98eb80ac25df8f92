/-
  LineLisp.Proofs.Eval.Mentions — evaluation depends on the names that occur.

  Two sessions agree on some names if they have the same table and every one of the
  names is bound to the same value in both, or in neither; how many frames there are,
  and in which of them a name is bound, is left open. If an expression mentions such
  names only, its evaluations in the two have the same outcome and leave sessions that
  agree again (`alike_evaluators`); a frame that stays behind in one stays in the other. It
  writes no name that it does not mention, so the others mean what they meant
  (`eval_depends_on_mentioned_names`).
-/

import LineLisp.Proofs.Eval.Effect

namespace LineLisp

/-! ## Names that occur -/

namespace Expr

/-- The name occurs in the expression as a symbol. -/
def Mentions (e : Expr) (name : Name) : Prop := ∃ span, .atom span (.symbol name) ∈ e.nodes

theorem Mentions.item {e : Expr} {name : Name} (h : e.Mentions name) {span : Span} {b : Bracket} {items : List Expr}
    (he : e ∈ items) : (group span b items).Mentions name := by
  obtain ⟨at_, hn⟩ := h
  exact ⟨at_, List.mem_cons_of_mem _ (mem_nodesEach he hn)⟩

theorem mentions_symbol (span : Span) (name : Name) : (atom span (.symbol name)).Mentions name :=
  ⟨span, List.mem_cons_self⟩

end Expr

/-! ## Sessions that agree -/

/-- The same table, and the same meaning of some names. -/
structure Session.AgreeOn (N : Name → Prop) (s s' : Session) : Prop where
  names : s.names = s'.names
  get? : ∀ k, N k → s.get? k = s'.get? k

/-- Two stacks that agree on some names, and on every other with the stacks before them. -/
structure FrameStack.Alike (N : Name → Prop) (r r' u u' : FrameStack Name Value) : Prop where
  agree : ∀ k, N k → u.get? k = u'.get? k
  others : ∀ k, ¬ N k → u.get? k = r.get? k ∧ u'.get? k = r'.get? k

namespace FrameStack.Alike

variable {N : Name → Prop} {r r' u u' v v' : FrameStack Name Value}

theorem trans (h : Alike N r r' u u') (h' : Alike N u u' v v') : Alike N r r' v v' := by
  refine ⟨h'.agree, fun k hk => ?_⟩
  obtain ⟨hu, hu'⟩ := h.others k hk
  obtain ⟨hv, hv'⟩ := h'.others k hk
  exact ⟨hv.trans hu, hv'.trans hu'⟩

theorem insert (h : ∀ k, N k → r.get? k = r'.get? k) {name : Name} (hn : N name) (v : Value) :
    Alike N r r' (r.insert name v) (r'.insert name v) := by
  refine ⟨fun k hk => ?_, fun k hk => ?_⟩
  · rw [get?_insert, get?_insert, h k hk]
  · have hne : k ≠ name := fun he => hk (he ▸ hn)
    rw [get?_insert, get?_insert, if_neg hne, if_neg hne]
    exact ⟨rfl, rfl⟩

theorem push_empty (h : ∀ k, N k → r.get? k = r'.get? k) : Alike N r r' (r.push .empty) (r'.push .empty) := by
  have hpush : ∀ (t : FrameStack Name Value) k, (t.push .empty).get? k = t.get? k := fun t k => get?_push t .empty k
  refine ⟨fun k hk => ?_, fun k _ => ⟨hpush r k, hpush r' k⟩⟩
  rw [hpush, hpush, h k hk]

end FrameStack.Alike

namespace Eval

open Session (AgreeOn)

/-- The ends of an action in two sessions: the same outcome and the same table, and frames
    that agree. A frame that has stayed behind has stayed in both, above frames that agree. -/
structure EndAlike {α : Type} (N : Name → Prop) (s s' : Session) (x x' : Except Stop α × Session) : Prop where
  result : x.1 = x'.1
  names : x.2.names = x'.2.names
  frames : FrameStack.Alike N s.frames s'.frames x.2.frames x'.2.frames
  depth : x.2.depth + s'.depth = x'.2.depth + s.depth
  kept : ∀ a, x.1 = .ok a → x.2.depth = s.depth
  below : s.depth < x.2.depth → FrameStack.Alike N s.frames s'.frames x.2.frames.pop x'.2.frames.pop

/-- An action that ends alike in sessions that agree. -/
def Alike {α : Type} (N : Name → Prop) (m : EvalM α) : Prop := ∀ s s', AgreeOn N s s' → EndAlike N s s' (m s) (m s')

section

variable {α β : Type} {N P : Name → Prop} {s s' t t' : Session}

theorem EndAlike.agreeOn {x x' : Except Stop α × Session} (h : EndAlike N s s' x x') : AgreeOn N x.2 x'.2 :=
  ⟨h.names, h.frames.agree⟩

/-- An end with as many frames as at the start. -/
theorem EndAlike.of_depth {r : Except Stop α} (hnames : t.names = t'.names)
    (h : FrameStack.Alike N s.frames s'.frames t.frames t'.frames) (hd : t.depth = s.depth) (hd' : t'.depth = s'.depth) :
    EndAlike N s s' (r, t) (r, t') where
  result := rfl
  names := hnames
  frames := h
  depth := by rw [hd, hd', Nat.add_comm]
  kept _ _ := hd
  below hlt := absurd hlt (Nat.not_lt_of_le (Nat.le_of_eq hd))

/-- An end that has not touched the frames. -/
theorem EndAlike.of_frames {r : Except Stop α} (h : AgreeOn N s s') (hnames : t.names = t'.names)
    (ht : t.frames = s.frames) (ht' : t'.frames = s'.frames) : EndAlike N s s' (r, t) (r, t') := by
  refine .of_depth hnames ?_ (congrArg FrameStack.depth ht) (congrArg FrameStack.depth ht')
  rw [ht, ht']
  exact ⟨h.get?, fun _ _ => ⟨rfl, rfl⟩⟩

/-- An end with a frame that has stayed behind. -/
theorem EndAlike.of_push {e : Stop} {f f' : Frame Name Value} (h : AgreeOn N s s') (hnames : t.names = t'.names)
    (ht : FrameStack.Alike N s.frames s'.frames t.frames t'.frames)
    (hf : t.frames = s.frames.push f) (hf' : t'.frames = s'.frames.push f') :
    EndAlike N s s' ((.error e : Except Stop α), t) (.error e, t') where
  result := rfl
  names := hnames
  frames := ht
  depth := by
    show t.depth + s'.depth = t'.depth + s.depth
    have := depth_of_push hf
    have := depth_of_push hf'
    omega
  kept _ he := by cases he
  below _ := by
    simp only [hf, hf', FrameStack.pop_push]
    exact ⟨h.get?, fun _ _ => ⟨rfl, rfl⟩⟩

theorem alike_pure (a : α) : Alike N (pure a : EvalM α) := fun _ _ h => .of_frames h h.names rfl rfl

theorem alike_throw (e : Stop) : Alike N (throw e : EvalM α) := fun _ _ h => .of_frames h h.names rfl rfl

theorem alike_fail (span : Span) (cause : EvalCause) : Alike N (fail span cause : EvalM α) := alike_throw _

theorem alike_bind {m : EvalM α} {f : α → EvalM β} (hm : Alike N m) (hf : ∀ a, Alike N (f a)) : Alike N (m >>= f) := by
  intro s s' h
  have hend := hm s s' h
  rw [bind_run, bind_run]
  generalize m s = x, m s' = x' at hend
  obtain ⟨r, t⟩ := x
  obtain ⟨r', t'⟩ := x'
  obtain rfl : r = r' := hend.result
  cases r with
  | error e => exact ⟨rfl, hend.names, hend.frames, hend.depth, fun a ha => (by cases ha), hend.below⟩
  | ok a =>
    have hdepth : t.depth = s.depth := hend.kept a rfl
    have hsum : t.depth + s'.depth = t'.depth + s.depth := hend.depth
    have hdepth' : t'.depth = s'.depth := by omega
    have hrest := hf a t t' hend.agreeOn
    refine ⟨hrest.result, hrest.names, hend.frames.trans hrest.frames, ?_, fun b hb => (hrest.kept b hb).trans hdepth, ?_⟩
    · rw [← hdepth, ← hdepth']
      exact hrest.depth
    · exact fun hlt => hend.frames.trans (hrest.below (hdepth ▸ hlt))

theorem alike_spend (budget cost : Nat) : Alike N (spend budget cost) := by
  unfold spend
  split
  · exact alike_throw _
  · exact alike_pure _

theorem alike_lookup (src : Source) (span : Span) {name : Name} (hn : N name) : Alike N (lookup src span name) := by
  intro s s' h
  rw [lookup_run, lookup_run, h.get? name hn]
  split <;> exact .of_frames h h.names rfl rfl

theorem alike_evalAtom (src : Source) (span : Span) (a : Atom) (hn : ∀ k, (Expr.atom span a).Mentions k → N k) :
    Alike N (evalAtom src span a) := by
  cases a with
  | symbol name => exact alike_lookup src span (hn name (Expr.mentions_symbol span name))
  | string =>
    simp only [evalAtom]
    split
    · exact alike_pure _
    · exact alike_throw _
  | _ => first | exact alike_pure _ | exact alike_throw _

theorem alike_bindName {name : Name} (hn : N name) (v : Value) : Alike N (bindName name v) :=
  fun s s' h => .of_depth h.names (.insert h.get? hn v) (s.depth_bind name v) (s'.depth_bind name v)

variable (host : Host) (src : Source) (budget : Nat)

theorem alike_define (target : Span) {name : Name} (hn : N name) (v : Value) :
    Alike N (define host budget src target name v) := by
  intro s s' h
  rw [define_run, define_run]
  split <;> exact .of_depth h.names (.insert h.get? hn v) (s.depth_bind name v) (s'.depth_bind name v)

theorem alike_call (span : Span) (f : Function) (args : List Value) : Alike N (call host budget span f args) := by
  intro s s' h
  rw [call_run, call_run, h.names]
  rcases f.call host.functions budget s'.names args with ⟨reply, names⟩
  simp only
  split <;> exact .of_frames h rfl rfl rfl

/-- The frame that is left is the new one in both sessions or in neither. -/
theorem alike_inFrame {m : EvalM α} (hm : Alike N m) (hconfined : Confined host P m) : Alike N (inFrame host budget m) := by
  intro s s' h
  have hentered : FrameStack.Alike N s.frames s'.frames (entered s).frames (entered s').frames := .push_empty h.get?
  have hend := hm (entered s) (entered s') ⟨h.names, hentered.agree⟩
  have hdepth : (m (entered s)).2.depth + (s'.depth + 1) = (m (entered s')).2.depth + (s.depth + 1) := hend.depth
  have hnames : ∀ mark mark', ((m (entered s)).2.leave mark).2.names = ((m (entered s')).2.leave mark').2.names := by
    intro mark mark'
    rw [Session.names_leave, Session.names_leave]
    exact hend.names
  cases hconfined.frameEnd budget s with
  | unrecorded hroom hrun =>
    have hrun' := inFrame_run host budget m s'
    rw [if_pos hroom] at hrun'
    rw [hrun, hrun']
    exact .of_push h h.names hentered (Session.frames_enter s) (Session.frames_enter s')
  | left f hroom hf hrun hframes =>
    cases hconfined.frameEnd budget s' with
    | unrecorded hnone => exact absurd hnone (Nat.not_lt_of_le hroom)
    | strayed f' g' _ _ hf' =>
      have := depth_of_push hf
      have := depth_of_push_push hf'
      omega
    | left f' _ hf' hrun' hframes' =>
      rw [hrun] at hframes
      rw [hrun'] at hframes'
      rw [hrun, hrun', ← hend.result]
      exact .of_frames h (hnames _ _) hframes hframes'
  | strayed f g hroom _ hf hrun hframes =>
    cases hconfined.frameEnd budget s' with
    | unrecorded hnone => exact absurd hnone (Nat.not_lt_of_le hroom)
    | left f' _ hf' =>
      have := depth_of_push_push hf
      have := depth_of_push hf'
      omega
    | strayed f' g' _ _ hf' hrun' hframes' =>
      have hbelow := hentered.trans (hend.below (by rw [depth_of_push_push hf]; exact Nat.lt_succ_self _))
      rw [hrun] at hframes
      rw [hrun'] at hframes'
      rw [hrun, hrun']
      refine .of_push h (hnames _ _) ?_ hframes hframes'
      rwa [Session.frames_leave, Session.frames_leave]

end

/-! ## Evaluation -/

section

variable {N : Name → Prop} (host : Host) (src : Source) (budget : Nat) {span head : Span}

theorem alike_defineForm {target value : Expr}
    (hn : ∀ k, (Expr.group span .round [.atom head (.operator .define), target, value]).Mentions k → N k)
    (hvalue : ∀ b, (∀ k, value.Mentions k → N k) → Alike N (eval host src b value)) :
    Alike N (eval host src budget (.group span .round [.atom head (.operator .define), target, value])) := by
  rw [eval]
  refine alike_bind (alike_spend _ _) fun b => ?_
  obtain ⟨at_, name, rfl⟩ | hnone := nameOf_cases target
  · have hname : N name := hn name ((Expr.mentions_symbol at_ name).item (by simp))
    show Alike N (eval host src b value >>= fun v => define host b src at_ name v >>= fun _ => pure v)
    refine alike_bind (hvalue b fun k hk => hn k (hk.item (by simp))) fun v => ?_
    exact alike_bind (alike_define host src b at_ hname v) fun _ => alike_pure v
  · rw [hnone]
    exact alike_fail _ _

theorem alike_chooseForm {condition yes no : Expr}
    (hn : ∀ k, (Expr.group span .round [.atom head (.operator .choose), condition, yes, no]).Mentions k → N k)
    (hcondition : ∀ b, (∀ k, condition.Mentions k → N k) → Alike N (eval host src b condition))
    (hyes : ∀ b, (∀ k, yes.Mentions k → N k) → Alike N (eval host src b yes))
    (hno : ∀ b, (∀ k, no.Mentions k → N k) → Alike N (eval host src b no)) :
    Alike N (eval host src budget (.group span .round [.atom head (.operator .choose), condition, yes, no])) := by
  rw [eval]
  refine alike_bind (alike_spend _ _) fun b => ?_
  refine alike_bind (hcondition b fun k hk => hn k (hk.item (by simp))) fun v => ?_
  split
  · exact hyes b fun k hk => hn k (hk.item (by simp))
  · exact hno b fun k hk => hn k (hk.item (by simp))

theorem alike_bindForm {at_ : Span} {b : Bracket} {slots : List Expr} {body : Expr} (heven : slots.length % 2 = 0)
    (hn : ∀ k, (Expr.group span .round [.atom head (.operator .bind), .group at_ b slots, body]).Mentions k → N k)
    (hslots : ∀ b, (∀ e ∈ slots, ∀ k, e.Mentions k → N k) → Alike N (evalBindings host src b slots))
    (hbody : ∀ b, (∀ k, body.Mentions k → N k) → Alike N (eval host src b body)) :
    Alike N (eval host src budget (.group span .round [.atom head (.operator .bind), .group at_ b slots, body])) := by
  obtain ⟨confinedEval, -, confinedBindings⟩ := confined_evaluators host src
  rw [eval, if_pos heven]
  refine alike_bind (alike_spend _ _) fun left => ?_
  refine alike_inFrame host left (alike_bind (hslots left ?_) fun _ => hbody left ?_)
    (confined_letScope host src left (confinedEval left body) (confinedBindings left slots))
  · intro e he k hk
    have hgroup : (Expr.group at_ b slots).Mentions k := hk.item he
    exact hn k (hgroup.item (by simp))
  · exact fun k hk => hn k (hk.item (by simp))

theorem alike_callForm {name : Name} {args : List Expr}
    (hn : ∀ k, (Expr.group span .round (.atom head (.symbol name) :: args)).Mentions k → N k)
    (hargs : ∀ b, (∀ e ∈ args, ∀ k, e.Mentions k → N k) → Alike N (evalEach host src b args)) :
    Alike N (eval host src budget (.group span .round (.atom head (.symbol name) :: args))) := by
  rw [eval]
  have hname : N name := hn name ((Expr.mentions_symbol head name).item List.mem_cons_self)
  refine alike_bind (alike_lookup src head hname) fun v => ?_
  split
  · refine alike_bind (alike_spend _ _) fun b => alike_bind (hargs b ?_) fun vs => alike_call host b span _ vs
    exact fun e he k hk => hn k (hk.item (List.mem_cons_of_mem _ he))
  · exact alike_fail _ _

end

theorem alike_evaluators (N : Name → Prop) (host : Host) (src : Source) :
    (∀ budget e, (∀ k, e.Mentions k → N k) → Alike N (eval host src budget e)) ∧
    (∀ budget es, (∀ e ∈ es, ∀ k, e.Mentions k → N k) → Alike N (evalEach host src budget es)) ∧
    ∀ budget slots, (∀ e ∈ slots, ∀ k, e.Mentions k → N k) → Alike N (evalBindings host src budget slots) := by
  refine eval_induction ?atom ?vector ?refused ?define ?choose ?bind ?call ?nil ?cons ?slot ?done
  case atom =>
    intro budget span a hn
    rw [eval]
    exact alike_evalAtom src span a hn
  case vector =>
    intro budget span items ih hn
    rw [eval]
    refine alike_bind (alike_spend _ _) fun b => alike_bind (ih b ?_) fun vs => alike_pure _
    exact fun e he k hk => hn k (hk.item he)
  case refused =>
    intro budget span items blamed cause h _
    rw [eval_refused host src budget h]
    exact alike_fail _ _
  case define => exact fun budget span head target value ih hn => alike_defineForm host src budget hn ih
  case choose =>
    exact fun budget span head condition yes no ihc ihy ihn hn => alike_chooseForm host src budget hn ihc ihy ihn
  case bind =>
    exact fun budget span head at_ b slots body heven ihs ihb hn => alike_bindForm host src budget heven hn ihs ihb
  case call => exact fun budget span head name args ih hn => alike_callForm host src budget hn ih
  case nil =>
    intro budget _
    rw [evalEach]
    exact alike_pure _
  case cons =>
    intro budget e es ihe ihes hn
    obtain ⟨he, hes⟩ := List.forall_mem_cons.mp hn
    rw [evalEach]
    exact alike_bind (ihe he) fun v => alike_bind (ihes hes) fun vs => alike_pure _
  case slot =>
    intro budget target value rest ihv ihr hn
    rw [evalBindings]
    obtain ⟨at_, name, rfl⟩ | hnone := nameOf_cases target
    · have hname : N name := hn _ List.mem_cons_self name (Expr.mentions_symbol at_ name)
      show Alike N (eval host src budget value >>= fun v => bindName name v >>= fun _ => evalBindings host src budget rest)
      refine alike_bind (ihv (hn value (by simp))) fun v => alike_bind (alike_bindName hname v) fun _ => ihr fun e he => ?_
      exact hn e (List.mem_cons_of_mem _ (List.mem_cons_of_mem _ he))
    · rw [hnone]
      exact alike_fail _ _
  case done =>
    intro budget slots hlen _
    rw [evalBindings_done host src budget hlen]
    exact alike_pure ()

/-- In two sessions with the same table that agree on the names that occur in an
    expression, whatever their frames, it has the same outcome and leaves the same table;
    afterwards they agree on these names again, and in each of them every other name
    means what it meant. -/
theorem eval_depends_on_mentioned_names (host : Host) (src : Source) (budget : Nat) (e : Expr) (s s' : Session)
    (hnames : s.names = s'.names) (hget : ∀ k, e.Mentions k → s.get? k = s'.get? k) :
    let (result, t) := eval host src budget e s
    let (result', t') := eval host src budget e s'
    result = result' ∧ t.names = t'.names ∧ (∀ k, e.Mentions k → t.get? k = t'.get? k) ∧
      ∀ k, ¬ e.Mentions k → t.get? k = s.get? k ∧ t'.get? k = s'.get? k := by
  have hend := (alike_evaluators e.Mentions host src).1 budget e (fun _ hk => hk) s s' ⟨hnames, hget⟩
  exact ⟨hend.result, hend.names, hend.frames.agree, hend.frames.others⟩

/-- A definition from a call, in the frame of the built-ins and in a frame above it that
    binds another name. -/
theorem eval_depends_on_mentioned_names_below :
    let at_ := Span.point 0
    let e : Expr := .group at_ .round [.atom at_ (.operator .define), .atom at_ (.symbol 20),
      .group at_ .round [.atom at_ (.symbol 0), .atom at_ (.integer 1), .atom at_ (.integer 2)]]
    let s := Session.fresh
    let s' := s.enter.2.bind 30 .nil
    let t := (eval Hosts.none ⟨[], 0⟩ 9 e s).2
    let t' := (eval Hosts.none ⟨[], 0⟩ 9 e s').2
    s.depth ≠ s'.depth ∧ (eval Hosts.none ⟨[], 0⟩ 9 e s').1 = .ok (.int 3) ∧
      (∀ k, e.Mentions k → t.get? k = t'.get? k) ∧ ∀ k, ¬ e.Mentions k → t.get? k = s.get? k ∧ t'.get? k = s'.get? k := by
  intro at_ e s s' t t'
  have hmentions : ∀ k, e.Mentions k → k ≠ 30 := by
    rintro k ⟨span, hk⟩ rfl
    simp [e, Expr.nodes, Expr.nodesEach] at hk
  have hget : ∀ k, e.Mentions k → s.get? k = s'.get? k := by
    intro k hk
    rw [Session.get?_bind, if_neg (hmentions k hk)]
    exact (FrameStack.get?_push s.frames .empty k).symm
  obtain ⟨-, -, hagree, hother⟩ := eval_depends_on_mentioned_names Hosts.none ⟨[], 0⟩ 9 e s s' rfl hget
  exact ⟨by decide, rfl, hagree, hother⟩

end Eval

end LineLisp
