/-
  LineLisp.Proofs.Eval.Budget — a larger budget changes nothing but running out of it.

  What does not run out of stack does the same with more, and with records that take less
  (`Outlasts`, operation by operation): same outcome, same session, the log included. A
  budget is looked at when a cost is spent, when a built-in is called and when a record is
  made, and there it only tells whether to go on. A frame left out of order comes of running
  out of stack too, where records take some.
-/

import LineLisp.Proofs.Eval.Effect

namespace LineLisp

/-- A call that has stack enough has the same reply with more. -/
theorem Function.call_of_le {hosts : Hosts} {budget budget' : Nat} (h : budget ≤ budget') {names : NameTable}
    {args : List Value} (f : Function) (hroom : (f.call hosts budget names args).1 ≠ .exhausted) :
    f.call hosts budget' names args = f.call hosts budget names args := by
  cases f with
  | host serial label => rfl
  | builtin b =>
    simp only [call] at hroom ⊢
    by_cases hneed : b.stackNeed args > budget
    · rw [if_pos hneed] at hroom
      exact absurd rfl hroom
    · have hneed' : ¬ b.stackNeed args > budget' := by omega
      rw [if_neg hneed, if_neg hneed']

namespace Eval

/-- An action ran out of stack, or has not left a frame that there was no stack to record. -/
def Starved {α : Type} (host : Host) (r : Except Stop α) : Prop := r = .error .exhausted ∨ RanShort host r

/-- The second action does what the first does, unless the first runs out of stack. -/
def Outlasts {α : Type} (host : Host) (m m' : EvalM α) : Prop := ∀ s, ¬ Starved host (m s).1 → m' s = m s

section

variable {α β : Type} {host host' : Host} {m m' : EvalM α} {f f' : α → EvalM β} {budget budget' : Nat}

theorem not_starved_ok {a : α} : ¬ Starved host (.ok a) := by
  rintro (h | h)
  · cases h
  · exact not_ranShort_ok h

theorem Starved.error {e : Stop} (h : Starved host (.error e : Except Stop α)) : Starved host (.error e : Except Stop β) := by
  rcases h with h | h
  · cases h
    exact Or.inl rfl
  · exact Or.inr h.error

theorem Outlasts.refl (m : EvalM α) : Outlasts host m m := fun _ _ => rfl

theorem Outlasts.bind (hm : Outlasts host m m') (hf : ∀ a, Outlasts host (f a) (f' a)) :
    Outlasts host (m >>= f) (m' >>= f') := by
  intro s h
  have hs := hm s
  rw [bind_run] at h
  rw [bind_run, bind_run]
  generalize m s = x at h hs ⊢
  obtain ⟨e | a, t⟩ := x
  · rw [hs fun he => h he.error]
  · rw [hs not_starved_ok]
    exact hf a t h

/-- What is left of a larger budget is larger. -/
theorem Outlasts.spend_bind {f f' : Nat → EvalM β} (h : budget ≤ budget') (cost : Nat)
    (hf : ∀ left left', left ≤ left' → Outlasts host (f left) (f' left')) :
    Outlasts host (spend budget cost >>= f) (spend budget' cost >>= f') := by
  intro s hroom
  rw [bind_run, spend_run] at hroom ⊢
  rw [bind_run, spend_run]
  by_cases hcost : budget < cost
  · rw [if_pos hcost] at hroom
    exact absurd (Or.inl rfl) hroom
  · rw [if_neg hcost] at hroom ⊢
    rw [if_neg (by omega : ¬ budget' < cost)]
    exact hf _ _ (by omega) s hroom

/-- What is spent is not needed. -/
theorem Outlasts.of_spend {f : Nat → EvalM β} {p : EvalM β} (cost : Nat)
    (hf : ∀ left, left ≤ budget → Outlasts host (f left) p) : Outlasts host (spend budget cost >>= f) p := by
  intro s hroom
  rw [bind_run, spend_run] at hroom ⊢
  by_cases hcost : budget < cost
  · rw [if_pos hcost] at hroom
    exact absurd (Or.inl rfl) hroom
  · rw [if_neg hcost] at hroom ⊢
    exact hf _ (Nat.sub_le _ _) s hroom

/-- A new frame of an action that does not run out of stack is left again, with all that was
    written in it. -/
theorem left_inFrame {P : Name → Prop} (hc : Confined host P m) (s : Session)
    (hroom : ¬ Starved host (inFrame host budget m s).1) :
    host.recordCost ≤ budget ∧ (inFrame host budget m s).1 = (m (entered s)).1 ∧
      (inFrame host budget m s).2.frames = s.frames := by
  cases hc.frameEnd budget s with
  | unrecorded _ hrun => exact absurd (Or.inl (congrArg Prod.fst hrun)) hroom
  | left f hcost _ hrun hframes => exact ⟨hcost, by rw [hrun], hframes⟩
  | strayed f g _ hshort _ hrun =>
    rw [hrun] at hroom
    exact absurd (Or.inr hshort.outOfOrder) hroom

/-- A host with the same functions, for which records take no more stack. -/
structure Sparing (host host' : Host) : Prop where
  functions : host'.functions = host.functions
  cost : host'.recordCost ≤ host.recordCost

theorem Sparing.refl (host : Host) : Sparing host host := ⟨rfl, Nat.le_refl _⟩

theorem Outlasts.inFrame {P : Name → Prop} (hh : Sparing host host') (h : budget ≤ budget') (hc : Confined host P m)
    (hm : Outlasts host m m') : Outlasts host (inFrame host budget m) (Eval.inFrame host' budget' m') := by
  intro s hroom
  obtain ⟨hcost, hresult, -⟩ := left_inFrame hc s hroom
  have hcost' : host'.recordCost ≤ budget' := Nat.le_trans hh.cost (Nat.le_trans hcost h)
  rw [hresult] at hroom
  rw [inFrame_run, inFrame_run, if_neg (Nat.not_lt_of_le hcost), if_neg (Nat.not_lt_of_le hcost'),
    leaving_run, leaving_run, hm _ hroom]

theorem outlasts_define (hh : Sparing host host') (h : budget ≤ budget') (src : Source) (target : Span) (name : Name)
    (v : Value) : Outlasts host (define host budget src target name v) (define host' budget' src target name v) := by
  have hle := hh.cost
  intro s hroom
  rw [define_run] at hroom ⊢
  rw [define_run]
  by_cases hcost : budget < host.recordCost
  · rw [if_pos hcost] at hroom
    exact absurd (Or.inl rfl) hroom
  · rw [if_neg hcost, if_neg (by omega : ¬ budget' < host'.recordCost)]

theorem outlasts_call (hh : Sparing host host') (h : budget ≤ budget') (span : Span) (f : Function) (args : List Value) :
    Outlasts host (call host budget span f args) (call host' budget' span f args) := by
  have hle := hh.cost
  intro s hroom
  rw [call_run] at hroom ⊢
  rw [call_run, hh.functions]
  have hcall : (f.call host.functions budget s.names args).1 ≠ .exhausted →
      f.call host.functions budget' s.names args = f.call host.functions budget s.names args := f.call_of_le h
  generalize f.call host.functions budget s.names args = x at hroom hcall ⊢
  obtain ⟨reply, names⟩ := x
  simp only at hroom hcall ⊢
  by_cases hcost : s.names.newRecords names ≠ [] ∧ budget < host.recordCost
  · rw [if_pos hcost] at hroom
    exact absurd (Or.inl rfl) hroom
  · rw [if_neg hcost] at hroom
    have hreply : reply ≠ .exhausted := fun he => hroom (Or.inl (by rw [he]; rfl))
    rw [hcall hreply]
    simp only
    rw [if_neg hcost, if_neg fun hcost' => hcost ⟨hcost'.1, by omega⟩]

/-! ## Forms -/

/-- With every larger budget, the evaluation of an expression outlasts that with the budget. -/
def OutlastsFrom (host host' : Host) (src : Source) (e : Expr) (budget : Nat) : Prop :=
  ∀ budget', budget ≤ budget' → Outlasts host (eval host src budget e) (eval host' src budget' e)

variable {src : Source} {span head : Span}

theorem outlasts_defineForm {target value : Expr} (hh : Sparing host host')
    (hvalue : ∀ left, OutlastsFrom host host' src value left) :
    OutlastsFrom host host' src (.group span .round [.atom head (.operator .define), target, value]) budget := by
  intro budget' h
  rw [eval, eval]
  refine .spend_bind h _ fun left left' hl => .bind (.refl _) fun name => ?_
  exact .bind (hvalue left left' hl) fun v => .bind (outlasts_define hh hl src _ name v) fun _ => .refl _

theorem outlasts_chooseForm {condition yes no : Expr} (hcondition : ∀ left, OutlastsFrom host host' src condition left)
    (hyes : ∀ left, OutlastsFrom host host' src yes left) (hno : ∀ left, OutlastsFrom host host' src no left) :
    OutlastsFrom host host' src (.group span .round [.atom head (.operator .choose), condition, yes, no]) budget := by
  intro budget' h
  rw [eval, eval]
  refine .spend_bind h _ fun left left' hl => .bind (hcondition left left' hl) fun v => ?_
  split
  · exact hyes left left' hl
  · exact hno left left' hl

theorem outlasts_bindForm {at_ : Span} {b : Bracket} {slots : List Expr} {body : Expr} (hh : Sparing host host')
    (heven : slots.length % 2 = 0)
    (hslots : ∀ left left', left ≤ left' → Outlasts host (evalBindings host src left slots) (evalBindings host' src left' slots))
    (hbody : ∀ left, OutlastsFrom host host' src body left) :
    OutlastsFrom host host' src (.group span .round [.atom head (.operator .bind), .group at_ b slots, body]) budget := by
  intro budget' h
  rw [eval, eval, if_pos heven, if_pos heven]
  refine .spend_bind h _ fun left left' hl => ?_
  obtain ⟨confinedEval, -, confinedBindings⟩ := confined_evaluators host src
  have hc := confined_letScope host src left (confinedEval left body) (confinedBindings left slots)
  exact .inFrame hh hl hc (.bind (hslots left left' hl) fun _ => hbody left left' hl)

theorem outlasts_callForm {name : Name} {args : List Expr} (hh : Sparing host host')
    (hargs : ∀ left left', left ≤ left' → Outlasts host (evalEach host src left args) (evalEach host' src left' args)) :
    OutlastsFrom host host' src (.group span .round (.atom head (.symbol name) :: args)) budget := by
  intro budget' h
  rw [eval, eval]
  refine .bind (.refl _) fun v => ?_
  cases v with
  | function f =>
    refine .spend_bind h _ fun left left' hl => .bind (hargs left left' hl) fun vs => ?_
    exact outlasts_call hh hl span f vs
  | _ => exact .refl _

end

/-- Evaluation with a larger budget, and with records that take less, outlasts that with a
    smaller one. -/
theorem outlasts_evaluators {host host' : Host} (hh : Sparing host host') (src : Source) :
    (∀ budget e budget', budget ≤ budget' → Outlasts host (eval host src budget e) (eval host' src budget' e)) ∧
    (∀ budget es budget', budget ≤ budget' → Outlasts host (evalEach host src budget es) (evalEach host' src budget' es)) ∧
    ∀ budget slots budget', budget ≤ budget' →
      Outlasts host (evalBindings host src budget slots) (evalBindings host' src budget' slots) := by
  refine eval_induction ?atom ?vector ?refused ?define ?choose ?bind ?call ?nil ?cons ?slot ?done
  case atom =>
    intro budget span a budget' _
    rw [eval, eval]
    exact .refl _
  case vector =>
    intro budget span items ih budget' h
    rw [eval, eval]
    exact .spend_bind h _ fun left left' hl => .bind (ih left left' hl) fun vs => .refl _
  case refused =>
    intro budget span items blamed cause hrefused budget' _
    rw [eval_refused host src budget hrefused, eval_refused host' src budget' hrefused]
    exact .refl _
  case define => exact fun _ _ _ _ _ ih => outlasts_defineForm hh ih
  case choose => exact fun _ _ _ _ _ _ ihc ihy ihn => outlasts_chooseForm ihc ihy ihn
  case bind => exact fun _ _ _ _ _ _ _ heven ihs ihb => outlasts_bindForm hh heven ihs ihb
  case call => exact fun _ _ _ _ _ ih => outlasts_callForm hh ih
  case nil =>
    intro budget budget' _
    rw [evalEach, evalEach]
    exact .refl _
  case cons =>
    intro budget e es ihe ihes budget' h
    rw [evalEach, evalEach]
    exact .bind (ihe budget' h) fun v => .bind (ihes budget' h) fun vs => .refl _
  case slot =>
    intro budget target value rest ihv ihr budget' h
    rw [evalBindings, evalBindings]
    refine .bind (.refl _) fun name => .bind (ihv budget' h) fun v => ?_
    exact .bind (.refl _) fun _ => ihr budget' h
  case done =>
    intro budget slots hlen budget' _
    rw [evalBindings_done host src budget hlen, evalBindings_done host' src budget' hlen]
    exact .refl _

end Eval

end LineLisp
