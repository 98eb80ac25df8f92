/-
  LineLisp.Proofs.Eval.Records — the records of an evaluation and what it does.

  A step makes one kind of change to the session (`Step.change`), and what it records
  carries the depth that there is then (`Change.tells`); at every point the log tells
  nothing but the table of names, in order (`Runs.namedInPart`). From an expression to the
  outcome of its evaluation the definitions among the records are those of the `def` forms
  that the evaluation came by and completed, each once (`recorded_eval`).

  Where records take stack, a name or a frame may be without its record. Then the evaluation
  has run short of stack (`Config.Short`), and stays so to its outcome. Where it has not, the
  log tells the whole table (`Runs.named`) and the records can be replayed.
-/

import Mathlib.Data.List.Basic
import LineLisp.Proofs.Eval.Steps
import LineLisp.Proofs.Log.Replay

namespace LineLisp

/-! ## Names -/

theorem Builtin.grows_run (names : NameTable) (args : List Value) (b : Builtin) : names.Grows (b.run names args).2 := by
  cases b with
  | keyword =>
    simp only [Builtin.run]
    split
    · exact names.grows_intern _
    · exact names.grows_refl
  | _ => exact names.grows_refl

theorem Function.grows_call (hosts : Hosts) (budget : Nat) (names : NameTable) (args : List Value) (f : Function) :
    names.Grows (f.call hosts budget names args).2 := by
  cases f with
  | builtin b =>
    rw [Function.call]
    split
    · exact names.grows_refl
    · exact Builtin.grows_run names args b
  | host serial name => exact names.grows_refl

namespace Eval

open LogEvent

variable {host : Host} {src : Source}

/-! ## Running short of stack -/

/-- The outcome is one of an evaluation that ran short of stack. -/
def Config.Short (host : Host) (c : Config) : Prop := ∃ r, c.focus = .done r ∧ RanShort host r

/-- An evaluation that ran short has no way to go on. -/
theorem Step.short {c d : Config} (h : Step host src c d) (hc : c.Short host) : d.Short host := by
  obtain ⟨r, hfocus, hshort⟩ := hc
  cases h with
  | taken | defined | chosen | bound => cases hfocus; exact absurd hshort not_ranShort_ok
  | left =>
    cases hfocus
    refine ⟨_, rfl, ?_⟩
    split
    · exact hshort
    · exact hshort.outOfOrder
  | stopped _ => exact ⟨r, hfocus, hshort⟩
  | _ => cases hfocus

/-! ## One step -/

/-- What a step can do to the session. -/
inductive Change (host : Host) (src : Source) (c d : Config) : Prop
  | none : d.session = c.session → Change host src c d
  | names {names : NameTable} : c.session.names.Grows names → d.session = c.session.setNames names → Change host src c d
  | unrecordedNames {names : NameTable} : d.Short host → c.session.names.Grows names →
      d.session = c.session.setTable names → Change host src c d
  | bind (name : Name) (v : Value) : d.session = c.session.bind name v → Change host src c d
  | define {r : Except Stop Value} {budget : Nat} {target : Span} {name : Name} {k : List Task} (v : Value) :
      c = ⟨.done r, .define budget target name :: k, c.session⟩ →
      d.session = (c.session.bind name v).note (.defined (src.slice target) c.session.depth) → Change host src c d
  | enter : d.session = entered c.session → Change host src c d
  | unrecordedFrame : d.Short host → d.session = c.session.enter.2 → Change host src c d
  | leave {r : Except Stop Value} {mark : Nat} {k : List Task} : c = ⟨.done r, .frame mark :: k, c.session⟩ →
      d = ⟨.done (if c.session.depth = mark then r else .error (.fault .framesOutOfOrder)), k, (c.session.leave mark).2⟩ →
      Change host src c d

theorem session_spend (budget cost : Nat) (s : Session) : (spend budget cost s).2 = s := by
  rw [spend_run]
  split <;> rfl

theorem session_nameOf (e : Expr) (s : Session) : (nameOf e s).2 = s := by
  obtain ⟨span, name, rfl⟩ | hn := nameOf_cases e
  · rfl
  · rw [hn]
    rfl

theorem session_lookup (src : Source) (span : Span) (name : Name) (s : Session) : (lookup src span name s).2 = s := by
  rw [lookup_run]
  split <;> rfl

theorem session_evalAtom (src : Source) (span : Span) (a : Atom) (s : Session) : (evalAtom src span a s).2 = s := by
  cases a with
  | symbol name => exact session_lookup src span name s
  | string =>
    simp only [evalAtom]
    cases Span.of? (span.lo + 1) (span.hi - 1) <;> rfl
  | _ => rfl

/-- An action that leaves the session alone changes nothing, and what follows it finds the same session. -/
theorem change_after {α : Type} {c : Config} {m : EvalM α} {k : List Task} {next : α → Session → Config}
    (hm : (m c.session).2 = c.session) (h : ∀ a, Change host src c (next a c.session)) :
    Change host src c (after m k c.session next) := by
  unfold after
  generalize m c.session = x at hm
  obtain ⟨r, t⟩ := x
  obtain rfl : t = c.session := hm
  cases r with
  | error e => exact .none rfl
  | ok a => exact h a

theorem change_enterFrame {c : Config} {budget : Nat} {k : List Task} {next : Nat → Session → Config}
    (h : ∀ mark s, (next mark s).session = s) : Change host src c (after (enterFrame host budget) k c.session next) := by
  unfold after
  rw [enterFrame_run]
  by_cases hroom : budget < host.recordCost
  · rw [if_pos hroom]
    exact .unrecordedFrame ⟨_, rfl, ranShort_exhausted hroom⟩ rfl
  · rw [if_neg hroom]
    exact .enter (h _ _)

theorem change_call {c : Config} {budget : Nat} {span : Span} {f : Function} {args : List Value} {k : List Task} :
    Change host src c (outcome (Eval.call host budget span f args) k c.session) := by
  have hgrows := f.grows_call host.functions budget c.session.names args
  unfold outcome
  rw [call_run]
  generalize f.call host.functions budget c.session.names args = x at hgrows
  obtain ⟨reply, names⟩ := x
  by_cases hroom : c.session.names.newRecords names ≠ [] ∧ budget < host.recordCost
  · simp only [if_pos hroom]
    exact .unrecordedNames ⟨_, rfl, ranShort_exhausted hroom.2⟩ hgrows rfl
  · simp only [if_neg hroom]
    exact .names hgrows rfl

theorem Step.change {c d : Config} (h : Step host src c d) : Change host src c d := by
  cases h with
  | @atom _ span a _ s => exact .none (session_evalAtom src span a s)
  | vector => exact change_after (session_spend _ _ _) fun _ => .none rfl
  | refused => exact .none rfl
  | define => exact change_after (session_spend _ _ _) fun _ => change_after (session_nameOf _ _) fun _ => .none rfl
  | choose => exact change_after (session_spend _ _ _) fun _ => .none rfl
  | bind => exact change_after (session_spend _ _ _) fun _ => change_enterFrame fun _ _ => rfl
  | call =>
    refine change_after (session_lookup _ _ _ _) fun v => ?_
    cases v with
    | function f => exact change_after (session_spend _ _ _) fun _ => .none rfl
    | _ => exact .none rfl
  | item => exact .none rfl
  | taken => exact .none rfl
  | @finished use =>
    cases use with
    | vector => exact .none rfl
    | call span f => exact change_call
  | @defined v budget target name k s =>
    unfold after
    rw [define_run]
    by_cases hroom : budget < host.recordCost
    · rw [if_pos hroom]
      exact .bind name v rfl
    · rw [if_neg hroom]
      exact .define v rfl rfl
  | chosen => exact .none rfl
  | slot => exact change_after (session_nameOf _ _) fun _ => .none rfl
  | bound => exact .bind _ _ rfl
  | body => exact .none rfl
  | left => exact .leave rfl rfl
  | stopped => exact .none rfl

/-- The records of a change carry the depth there is after it. Those of a plain one are of no
    definition, and can be replayed unless the evaluation has run short of stack. -/
structure Tells (host : Host) (c d : Config) (rs : List LogEvent) : Prop where
  log : d.session.log.toList = c.session.log.toList ++ rs
  depth : ∀ r ∈ rs, ∀ n, r.depth? = some n → n = d.session.depth
  replayed : c.Plain host → depthAfterAll? c.session.depth rs = some d.session.depth ∨ d.Short host
  undefined : c.Plain host → ∀ r ∈ rs, r.isDefined = false

section

variable {c d : Config}

theorem tells_nothing (hlog : d.session.log = c.session.log)
    (hdepth : c.Plain host → d.session.depth = c.session.depth ∨ d.Short host) : Tells host c d [] where
  log := by rw [hlog, List.append_nil]
  depth r hr := nomatch hr
  replayed hplain := (hdepth hplain).imp_left fun h => congrArg some h.symm
  undefined _ r hr := nomatch hr

theorem tells_names {names : NameTable} (hd : d.session = c.session.setNames names) :
    Tells host c d (c.session.names.newRecords names) where
  log := by rw [hd, c.session.log_setNames names]
  depth r hr n hn := by
    rw [NameTable.depth?_of_mem_newRecords hr] at hn
    cases hn
  replayed _ := by
    rw [hd]
    exact Or.inl (c.session.adds_setNames names).depth
  undefined _ r hr := not_isDefined_of_depth? (NameTable.depth?_of_mem_newRecords hr)

theorem tells_note {s : Session} {e : LogEvent} (hd : d.session = s.note e) (hlog : s.log = c.session.log)
    (hdepth : e.depth? = some s.depth)
    (hplain : c.Plain host → depthAfter? c.session.depth e = some s.depth ∧ e.isDefined = false) :
    Tells host c d [e] where
  log := by rw [hd, s.log_note, hlog]
  depth r hr n hn := by
    obtain rfl := List.mem_singleton.mp hr
    rw [hd]
    exact Option.some.inj (hn.symm.trans hdepth)
  replayed h := by
    rw [hd]
    exact Or.inl (depthAfterAll?_singleton.trans (hplain h).1)
  undefined h := List.forall_mem_singleton.mpr (hplain h).2

theorem tells_leave {r : Except Stop Value} {mark : Nat} {k : List Task}
    (hc : c = ⟨.done r, .frame mark :: k, c.session⟩)
    (hd : d = ⟨.done (if c.session.depth = mark then r else .error (.fault .framesOutOfOrder)), k,
      (c.session.leave mark).2⟩) : ∃ rs, Tells host c d rs := by
  by_cases hmark : c.session.depth = mark
  · rw [if_pos hmark, Session.leave_of_eq _ hmark] at hd
    refine ⟨_, tells_note (congrArg Config.session hd) rfl rfl fun hplain => ⟨?_, rfl⟩⟩
    rw [hc] at hplain
    have hdeep : 1 < c.session.depth := by
      rw [hmark]
      exact hplain.1
    exact if_pos ⟨Nat.succ_pos _, FrameStack.depth_pop hdeep⟩
  · rw [if_neg hmark, Session.leave_of_ne _ hmark] at hd
    refine ⟨[], tells_nothing (by rw [hd]) fun hplain => Or.inr ?_⟩
    rw [hc] at hplain
    exact ⟨_, by rw [hd], (hplain.2.resolve_left hmark).outOfOrder⟩

theorem Change.tells (h : Change host src c d) : ∃ rs, Tells host c d rs := by
  cases h with
  | none hd => exact ⟨[], tells_nothing (by rw [hd]) fun _ => Or.inl (by rw [hd])⟩
  | names _ hd => exact ⟨_, tells_names hd⟩
  | unrecordedNames hshort _ hd => exact ⟨[], tells_nothing (by rw [hd]; rfl) fun _ => Or.inr hshort⟩
  | bind name v hd =>
    exact ⟨[], tells_nothing (by rw [hd]; rfl) fun _ => Or.inl (by rw [hd, Session.depth_bind])⟩
  | @define r budget target name k v hc hd =>
    have hdepth : (c.session.bind name v).depth = c.session.depth := c.session.depth_bind name v
    refine ⟨_, tells_note hd rfl (congrArg some hdepth.symm) fun hplain => ?_⟩
    rw [hc] at hplain
    cases hplain
  | enter hd => exact ⟨_, tells_note hd rfl rfl fun _ => ⟨if_pos rfl, rfl⟩⟩
  | unrecordedFrame hshort hd => exact ⟨[], tells_nothing (by rw [hd]; rfl) fun _ => Or.inr hshort⟩
  | leave hc hd => exact tells_leave hc hd

/-! ## Names -/

/-- A change leaves out no name, or has run short of stack. -/
theorem Change.named (h : Change host src c d) (hc : c.session.Named) : d.session.Named ∨ d.Short host := by
  cases h with
  | none hd => exact Or.inl (hd ▸ hc)
  | names hgrows hd => exact Or.inl (hd ▸ hc.setNames hgrows)
  | unrecordedNames hshort | unrecordedFrame hshort => exact Or.inr hshort
  | bind name v hd => exact Or.inl (hd ▸ hc)
  | define v _ hd => exact Or.inl (hd ▸ (Session.interned_note _ rfl).trans hc)
  | enter hd => exact Or.inl (hd ▸ (Session.interned_note _ rfl).trans hc)
  | @leave _ mark _ _ hd =>
    rw [hd]
    refine Or.inl ((c.session.interned_leave mark).trans (hc.trans ?_))
    rw [Session.names_leave]

theorem Change.namedInPart (h : Change host src c d) (hc : c.session.NamedInPart) : d.session.NamedInPart := by
  cases h with
  | none hd => exact hd ▸ hc
  | names hgrows hd => exact hd ▸ hc.setNames hgrows
  | unrecordedNames _ hgrows hd => exact hd ▸ hc.setTable hgrows
  | unrecordedFrame _ hd => exact hd ▸ hc
  | bind name v hd => exact hd ▸ hc
  | define v _ hd =>
    rw [hd, Session.NamedInPart, Session.interned_note _ rfl]
    exact hc
  | enter hd =>
    rw [hd, entered, Session.NamedInPart, Session.interned_note _ rfl]
    exact hc
  | @leave _ mark _ _ hd =>
    rw [hd, Session.NamedInPart, c.session.interned_leave mark, Session.names_leave]
    exact hc

/-- At every point of an evaluation the log tells the table, unless it has run short of stack. -/
theorem Runs.named (h : Runs host src c d) (hc : c.session.Named) : d.session.Named ∨ d.Short host := by
  induction h with
  | refl => exact Or.inl hc
  | tail _ hstep ih =>
    rcases ih with hnamed | hshort
    · exact hstep.change.named hnamed
    · exact Or.inr (hstep.short hshort)

/-- At every point of an evaluation the log tells nothing of names but what is in the table. -/
theorem Runs.namedInPart (h : Runs host src c d) (hc : c.session.NamedInPart) : d.session.NamedInPart := by
  induction h with
  | refl => exact hc
  | tail _ hstep ih => exact hstep.change.namedInPart ih

end

/-! ## From one configuration to another -/

/-- Steps through these configurations, the last one not counted. -/
inductive Path (host : Host) (src : Source) : Config → List Config → Config → Prop
  | nil (c : Config) : Path host src c [] c
  | cons {c d e : Config} {cs : List Config} : Step host src c d → Path host src d cs e →
      Path host src c (c :: cs) e

theorem Path.append {c d e : Config} {cs ds : List Config} (h : Path host src c cs d) (h' : Path host src d ds e) :
    Path host src c (cs ++ ds) e := by
  induction h with
  | nil => exact h'
  | cons hstep _ ih => exact .cons hstep (ih h')

theorem Path.short {c d : Config} {cs : List Config} (h : Path host src c cs d) (hc : c.Short host) : d.Short host := by
  induction h with
  | nil => exact hc
  | cons hstep _ ih => exact ih (hstep.short hc)

/-- The record of a definition that begins here and is completed. -/
def definition? (host : Host) (src : Source) (c : Config) : Option LogEvent :=
  match c.focus with
  | .expr budget e@(.group _ .round [.atom _ (.operator .define), target, _]) =>
    match (eval host src budget e c.session).1 with
    | .ok _ => some (.defined (src.slice target.span) c.session.depth)
    | .error _ => none
  | _ => none

theorem definition?_of_plain {c : Config} (h : c.Plain host) : definition? host src c = none := by
  obtain ⟨focus, k, s⟩ := c
  unfold definition?
  split
  · rename_i hfocus
    cases hfocus
    cases h
  · rfl

/-- A definition that fails has no record. -/
theorem definition?_of_error {budget : Nat} {e : Expr} {s : Session} {stop : Stop}
    (h : (eval host src budget e s).1 = .error stop) (k : List Task) :
    definition? host src ⟨.expr budget e, k, s⟩ = none := by
  unfold definition?
  split
  · rename_i hfocus
    cases hfocus
    simp only [h]
  · rfl

/-- Steps through these configurations with these records; the definitions among them are
    those that were completed on the way, in some order. -/
structure Recorded (host : Host) (src : Source) (c d : Config) (cs : List Config) (rs : List LogEvent) : Prop where
  path : Path host src c cs d
  log : d.session.log.toList = c.session.log.toList ++ rs
  replayed : depthAfterAll? c.session.depth rs = some d.session.depth ∨ d.Short host
  definitions : (rs.filter isDefined).Perm (cs.filterMap (definition? host src))

theorem Recorded.refl (c : Config) : Recorded host src c c [] [] := ⟨.nil c, (List.append_nil _).symm, Or.inl rfl, .nil⟩

theorem Recorded.trans {c d e : Config} {cs ds : List Config} {rs rs' : List LogEvent}
    (h : Recorded host src c d cs rs) (h' : Recorded host src d e ds rs') :
    Recorded host src c e (cs ++ ds) (rs ++ rs') where
  path := h.path.append h'.path
  log := by rw [h'.log, h.log, List.append_assoc]
  replayed := by
    rcases h.replayed with hreplayed | hshort
    · exact h'.replayed.imp_left fun hrest => depthAfterAll?_append.mpr ⟨_, hreplayed, hrest⟩
    · exact Or.inr (h'.path.short hshort)
  definitions := by
    rw [List.filter_append, List.filterMap_append]
    exact h.definitions.append h'.definitions

/-- There is a way from one configuration to the other, with its records. -/
def HasRecords (host : Host) (src : Source) (c d : Config) : Prop := ∃ cs rs, Recorded host src c d cs rs

theorem recorded_of_step {c d : Config} (h : Step host src c d) (hc : c.Plain host) :
    ∃ rs, Recorded host src c d [c] rs := by
  obtain ⟨rs, htells⟩ := h.change.tells
  refine ⟨rs, .cons h (.nil d), htells.log, htells.replayed hc, ?_⟩
  have hfilter : rs.filter isDefined = [] :=
    List.filter_eq_nil_iff.mpr fun r hr => by simp [htells.undefined hc r hr]
  rw [hfilter, List.filterMap_cons_none (definition?_of_plain hc)]
  exact .nil

/-- What is recorded last, after the records `rs` of all that came between, is the record of
    what begins with the first step. -/
theorem Recorded.around {c c' d d' : Config} {cs : List Config} {rs last : List LogEvent} (hfirst : Step host src c c')
    (hsession : c'.session = c.session) (h : Recorded host src c' d cs rs) (hlast : Step host src d d')
    (hd : definition? host src d = none) (hlog : d'.session.log.toList = d.session.log.toList ++ last)
    (hreplayed : depthAfterAll? d.session.depth last = some d'.session.depth)
    (hdefined : last.filter isDefined = (definition? host src c).toList) :
    Recorded host src c d' (c :: (cs ++ [d])) (rs ++ last) where
  path := .cons hfirst (h.path.append (.cons hlast (.nil d')))
  log := by rw [hlog, h.log, hsession, List.append_assoc]
  replayed := by
    rw [← hsession]
    rcases h.replayed with hbefore | hshort
    · exact Or.inl (depthAfterAll?_append.mpr ⟨_, hbefore, hreplayed⟩)
    · exact Or.inr (hlast.short hshort)
  definitions := by
    have hcons : (c :: (cs ++ [d])).filterMap (definition? host src)
        = (definition? host src c).toList ++ cs.filterMap (definition? host src) := by
      rw [List.filterMap_cons, List.filterMap_append, List.filterMap_cons_none hd, List.filterMap_nil, List.append_nil]
      cases definition? host src c <;> rfl
    rw [List.filter_append, hdefined, hcons]
    exact (h.definitions.append_right _).trans List.perm_append_comm

section

variable {budget left : Nat} {at_ : Span} {name : Name} {e value : Expr} {k : List Task} {s : Session}

/-- A step that fails and changes nothing. -/
theorem hasRecords_of_error {stop : Stop} (heval : eval host src budget e s = (.error stop, s))
    (hstep : Step host src ⟨.expr budget e, k, s⟩ ⟨.done (.error stop), k, s⟩) :
    HasRecords host src ⟨.expr budget e, k, s⟩ (outcome (eval host src budget e) k s) := by
  have hnone : definition? host src ⟨.expr budget e, k, s⟩ = none :=
    definition?_of_error (congrArg Prod.fst heval) k
  rw [outcome, heval]
  refine ⟨[_], [], .cons hstep (.nil _), (List.append_nil _).symm, Or.inl rfl, ?_⟩
  rw [List.filterMap_cons_none hnone]
  exact .nil

/-- A definition that has come to evaluate its value, and ends as that or as its own record. -/
theorem hasRecords_of_value
    (heval : eval host src budget e s
      = (eval host src left value >>= fun v => Eval.define host left src at_ name v >>= fun _ => pure v) s)
    (hfirst : Step host src ⟨.expr budget e, k, s⟩ ⟨.expr left value, .define left at_ name :: k, s⟩)
    (hdefinition : ∀ v, (eval host src budget e s).1 = .ok v →
      definition? host src ⟨.expr budget e, k, s⟩ = some (.defined (src.slice at_) s.depth))
    (hvalue : HasRecords host src ⟨.expr left value, .define left at_ name :: k, s⟩
      (outcome (eval host src left value) (.define left at_ name :: k) s)) :
    HasRecords host src ⟨.expr budget e, k, s⟩ (outcome (eval host src budget e) k s) := by
  obtain ⟨cs, rs, hvalue⟩ := hvalue
  have hconfined := (confined_evaluators host src).1 left value s
  have hfailed : ∀ stop, (eval host src budget e s).1 = .error stop →
      ([] : List LogEvent).filter isDefined = (definition? host src ⟨.expr budget e, k, s⟩).toList := by
    intro stop hstop
    rw [definition?_of_error hstop k]
    rfl
  rw [bind_run] at heval
  unfold outcome at hvalue ⊢
  generalize eval host src left value s = x at heval hvalue hconfined
  obtain ⟨stop | v, t⟩ := x
  · have hdefined := hfailed stop (congrArg Prod.fst heval)
    rw [heval]
    exact ⟨_, _, hvalue.around hfirst rfl (.stopped rfl) rfl (List.append_nil _).symm rfl hdefined⟩
  have hlast := @Step.defined host src v left at_ name k t
  have hkept : (t.bind name v).depth = t.depth := t.depth_bind name v
  simp only [bind_run] at heval
  unfold after at hlast
  rw [define_run] at heval hlast
  by_cases hroom : left < host.recordCost
  · rw [if_pos hroom] at heval hlast
    have hdefined := hfailed _ (congrArg Prod.fst heval)
    rw [heval]
    exact ⟨_, _, hvalue.around hfirst rfl hlast rfl (List.append_nil _).symm (congrArg some hkept.symm) hdefined⟩
  · rw [if_neg hroom] at heval hlast
    have hwrites := hconfined.resolve_right fun hstray => not_ranShort_ok hstray.short
    have hdepth : t.depth = s.depth := hwrites.depth_eq
    have hlog := (t.bind name v).log_note (.defined (src.slice at_) t.depth)
    have hreplayed : depthAfterAll? t.depth [.defined (src.slice at_) t.depth] = some (t.bind name v).depth := by
      rw [depthAfterAll?_singleton, hkept]
      exact if_pos rfl
    have hdefined : [LogEvent.defined (src.slice at_) t.depth].filter isDefined
        = (definition? host src ⟨.expr budget e, k, s⟩).toList := by
      rw [hdefinition v (congrArg Prod.fst heval), hdepth]
      rfl
    rw [heval]
    exact ⟨_, _, hvalue.around hfirst rfl hlast rfl hlog hreplayed hdefined⟩

end

/-- A definition is recorded if its value is: it fails at once, or comes to evaluate that. -/
theorem hasRecords_of_definition (span head : Span) (target : Expr) {value : Expr}
    (hvalue : ∀ budget k s,
      HasRecords host src ⟨.expr budget value, k, s⟩ (outcome (eval host src budget value) k s))
    (budget : Nat) (k : List Task) (s : Session) :
    HasRecords host src
      ⟨.expr budget (.group span .round [.atom head (.operator .define), target, value]), k, s⟩
      (outcome (eval host src budget (.group span .round [.atom head (.operator .define), target, value])) k s) := by
  have hfirst := @Step.define host src budget span head target value k s
  by_cases hcost : budget < formCost
  · have hspend : spend budget formCost s = (.error .exhausted, s) := by rw [spend_run, if_pos hcost]
    rw [after_of_error hspend] at hfirst
    refine hasRecords_of_error ?_ hfirst
    rw [eval, bind_run, hspend]
  · have hspend : spend budget formCost s = (.ok (budget - formCost), s) := by rw [spend_run, if_neg hcost]
    rw [after_of_ok hspend] at hfirst
    obtain ⟨at_, name, rfl⟩ | hname := nameOf_cases target
    · refine hasRecords_of_value ?_ hfirst ?_ (hvalue (budget - formCost) _ s)
      · rw [eval, bind_run, hspend]
        rfl
      · intro v hv
        simp only [definition?, hv, Expr.span]
    · have hstopped : nameOf target s = (.error (.error ⟨target.span, .notASymbol⟩), s) := by
        rw [hname]
        rfl
      rw [after_of_error hstopped] at hfirst
      refine hasRecords_of_error ?_ hfirst
      rw [eval, bind_run, hspend]
      simp only [bind_run, hstopped]

theorem closed_hasRecords (host : Host) (src : Source) : Closed host src (HasRecords host src) where
  refl c := ⟨[], [], .refl c⟩
  trans := by
    rintro c d e ⟨cs, rs, h⟩ ⟨ds, rs', h'⟩
    exact ⟨cs ++ ds, rs ++ rs', h.trans h'⟩
  step {c _} h hc := by
    obtain ⟨rs, hrecorded⟩ := recorded_of_step h hc
    exact ⟨[c], rs, hrecorded⟩
  define := hasRecords_of_definition

/-- An evaluation is a path, with its records. -/
theorem recorded_eval (host : Host) (src : Source) (budget : Nat) (e : Expr) (s : Session) :
    HasRecords host src ⟨.expr budget e, [], s⟩ (outcome (eval host src budget e) [] s) :=
  (closed_hasRecords host src).evaluators.1 budget e [] s

end Eval

end LineLisp
