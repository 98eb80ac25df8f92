/-
  LineLisp.Proofs.Eval.Positions — evaluation looks at texts and not at positions.

  A value depends on a line only through the texts at the atoms: the characters of a
  string, and the spelling of a symbol in a message or a record. So matching expressions
  with the same text at corresponding atoms are evaluated alike (`agree_evaluators`):
  two evaluations from the same session leave the same session, with the same value or
  with the same cause at corresponding spans. Which spans correspond is a parameter `S`,
  and so is `F`, which faults do: a string without room for its quotes has a fault that
  names positions, and no other has.
-/

import LineLisp.Proofs.Eval.Shapes
import LineLisp.Proofs.Expr.Places

namespace LineLisp

/-! ## Texts inside texts -/

namespace Source

variable {src src' : Source} {span span' : Span}

theorem slice_of_contains (h : src.span.contains span = true) :
    src.slice span = (src.text.drop (span.lo - src.start).toNat).take (span.hi - span.lo).toNat := by
  obtain ⟨hlo, hhi⟩ : src.start ≤ span.lo ∧ span.hi ≤ src.start + src.text.length := of_decide_eq_true h
  have hle := span.lo_le_hi
  rw [slice, place_of_nonneg (by omega), place_of_nonneg (by omega)]
  congr 1
  omega

theorem length_slice (h : src.span.contains span = true) : (src.slice span).length = (span.hi - span.lo).toNat := by
  obtain ⟨hlo, hhi⟩ : src.start ≤ span.lo ∧ span.hi ≤ src.start + src.text.length := of_decide_eq_true h
  rw [slice_of_contains h, List.length_take, List.length_drop]
  omega

/-- What stands between the first and the last character. -/
theorem slice_inner (h : src.span.contains span = true) (hin : span.lo + 1 ≤ span.hi - 1) :
    src.slice ⟨span.lo + 1, span.hi - 1, hin⟩ = ((src.slice span).drop 1).take ((src.slice span).length - 2) := by
  obtain ⟨hlo, hhi⟩ : src.start ≤ span.lo ∧ span.hi ≤ src.start + src.text.length := of_decide_eq_true h
  have hin' : src.span.contains ⟨span.lo + 1, span.hi - 1, hin⟩ = true :=
    decide_eq_true ⟨by show src.start ≤ span.lo + 1; omega, by show span.hi - 1 ≤ src.start + src.text.length; omega⟩
  have hinner : src.slice ⟨span.lo + 1, span.hi - 1, hin⟩
      = (src.text.drop (span.lo + 1 - src.start).toNat).take (span.hi - 1 - (span.lo + 1)).toNat :=
    slice_of_contains hin'
  rw [hinner, length_slice h, slice_of_contains h, List.drop_take, List.take_take, List.drop_drop]
  congr 1
  · omega
  · congr 1
    omega

/-- The same text has the same room, and the same text inside. -/
theorem SameText.inner (h : SameText src src' span span') :
    ((Span.of? (span.lo + 1) (span.hi - 1)).map src.slice) = (Span.of? (span'.lo + 1) (span'.hi - 1)).map src'.slice := by
  have hlen := length_slice h.inside
  have hlen' := length_slice h.inside'
  rw [h.slice] at hlen
  have hle := span.lo_le_hi
  have hle' := span'.lo_le_hi
  unfold Span.of?
  by_cases hin : span.lo + 1 ≤ span.hi - 1
  · have hin' : span'.lo + 1 ≤ span'.hi - 1 := by omega
    rw [dif_pos hin, dif_pos hin', Option.map_some, Option.map_some, slice_inner h.inside, slice_inner h.inside', h.slice]
  · have hin' : ¬ span'.lo + 1 ≤ span'.hi - 1 := by omega
    rw [dif_neg hin, dif_neg hin']
    rfl

end Source

namespace Eval

/-! ## Agreement -/

/-- The same cause at corresponding spans. A fault has no span, and may name positions. -/
inductive SameStop (S : Span → Span → Prop) (F : Fault → Fault → Prop) : Stop → Stop → Prop
  | error {span span' : Span} (cause : EvalCause) : S span span' →
      SameStop S F (.error ⟨span, cause⟩) (.error ⟨span', cause⟩)
  | exhausted : SameStop S F .exhausted .exhausted
  | fault {f f' : Fault} : F f f' → SameStop S F (.fault f) (.fault f')

inductive SameResult (S : Span → Span → Prop) (F : Fault → Fault → Prop) {α : Type} :
    Except Stop α → Except Stop α → Prop
  | ok (a : α) : SameResult S F (.ok a) (.ok a)
  | error {x x' : Stop} : SameStop S F x x' → SameResult S F (.error x) (.error x')

/-- The actions leave the same session, with the same result. -/
def Agree (S : Span → Span → Prop) (F : Fault → Fault → Prop) {α : Type} (m m' : EvalM α) : Prop :=
  ∀ s, (m' s).2 = (m s).2 ∧ SameResult S F (m s).1 (m' s).1

section

variable {α β : Type} {S : Span → Span → Prop} {F : Fault → Fault → Prop}

theorem agree_pure (a : α) : Agree S F (pure a) (pure a) := fun _ => ⟨rfl, .ok a⟩

theorem agree_throw {x x' : Stop} (h : SameStop S F x x') : Agree S F (throw x : EvalM α) (throw x') :=
  fun _ => ⟨rfl, .error h⟩

theorem agree_fail {span span' : Span} (h : S span span') (cause : EvalCause) :
    Agree S F (fail span cause : EvalM α) (fail span' cause) := agree_throw (.error cause h)

theorem agree_bind {m m' : EvalM α} {f f' : α → EvalM β} (hm : Agree S F m m') (hf : ∀ a, Agree S F (f a) (f' a)) :
    Agree S F (m >>= f) (m' >>= f') := by
  intro s
  obtain ⟨hsession, hresult⟩ := hm s
  rw [bind_run, bind_run]
  generalize m s = x, m' s = x' at hsession hresult
  obtain ⟨x, t⟩ := x
  obtain ⟨x', t'⟩ := x'
  obtain rfl : t' = t := hsession
  cases hresult with
  | ok a => exact hf a t'
  | error h => exact ⟨rfl, .error h⟩

theorem agree_spend (budget cost : Nat) : Agree S F (spend budget cost) (spend budget cost) := by
  unfold spend
  split
  · exact agree_throw .exhausted
  · exact agree_pure _

theorem agree_bindName (name : Name) (v : Value) : Agree S F (bindName name v) (bindName name v) :=
  fun _ => ⟨rfl, .ok ()⟩

theorem agree_call (hF : ∀ f, F f f) (host : Host) (budget : Nat) {span span' : Span} (h : S span span')
    (f : Function) (args : List Value) : Agree S F (call host budget span f args) (call host budget span' f args) := by
  intro s
  rw [call_run, call_run]
  rcases f.call host.functions budget s.names args with ⟨reply, names⟩
  simp only
  split
  · exact ⟨rfl, .error .exhausted⟩
  refine ⟨rfl, ?_⟩
  cases reply with
  | value v => exact .ok v
  | noValue => exact .error (.error .noValue h)
  | exhausted => exact .error .exhausted
  | fault f => exact .error (.fault (hF f))

theorem agree_enterFrame (host : Host) (budget : Nat) : Agree S F (enterFrame host budget) (enterFrame host budget) := by
  intro s
  rw [enterFrame_run]
  split
  · exact ⟨rfl, .error .exhausted⟩
  · exact ⟨rfl, .ok _⟩

theorem agree_leaving (hF : ∀ f, F f f) (mark : Nat) {m m' : EvalM α} (h : Agree S F m m') :
    Agree S F (leaving mark m) (leaving mark m') := by
  intro s
  obtain ⟨hsession, hresult⟩ := h s
  rw [leaving_run, leaving_run, hsession]
  refine ⟨rfl, ?_⟩
  split
  · exact hresult
  · exact .error (.fault (hF _))

theorem agree_inFrame (hF : ∀ f, F f f) (host : Host) (budget : Nat) {m m' : EvalM α} (h : Agree S F m m') :
    Agree S F (inFrame host budget m) (inFrame host budget m') :=
  agree_bind (agree_enterFrame host budget) fun mark => agree_leaving hF mark h

end

/-! ## The evaluators -/

section

variable {src src' : Source} {L G S : Span → Span → Prop} {F : Fault → Fault → Prop}

theorem agree_lookup {span span' : Span} (ht : src.SameText src' span span') (hs : S span span') (name : Name) :
    Agree S F (lookup src span name) (lookup src' span' name) := by
  intro s
  rw [lookup_run, lookup_run, ht.slice]
  cases s.get? name with
  | some v => exact ⟨rfl, .ok v⟩
  | none => exact ⟨rfl, .error (.error _ hs)⟩

/-- A fault that names the ends of the text between two quotes, when they are not there. -/
def noRoom (span : Span) : Fault := .invalidSpan (span.lo + 1) (span.hi - 1)

theorem agree_evalAtom (hF : ∀ f, F f f) {span span' : Span} (ht : src.SameText src' span span') (hs : S span span')
    {a : Atom} (hroom : a = .string → span.hi - 1 < span.lo + 1 → F (noRoom span) (noRoom span')) :
    Agree S F (evalAtom src span a) (evalAtom src' span' a) := by
  cases a with
  | symbol name => exact agree_lookup ht hs name
  | string =>
    have hinner := ht.inner
    simp only [evalAtom]
    cases h : Span.of? (span.lo + 1) (span.hi - 1) with
    | none =>
      rw [h] at hinner
      rw [Option.map_eq_none_iff.mp hinner.symm]
      exact agree_throw (.fault (hroom rfl (Span.of?_eq_none_iff.mp h)))
    | some inner =>
      rw [h] at hinner
      obtain ⟨inner', h', hslice⟩ := Option.map_eq_some_iff.mp hinner.symm
      rw [h']
      show Agree S F (pure (Value.str (.ofChars (src.slice inner)))) (pure (Value.str (.ofChars (src'.slice inner'))))
      rw [hslice]
      exact agree_pure _
  | operator op => exact agree_throw (.fault (hF _))
  | unknown kind => exact agree_throw (.fault (hF _))
  | bool b | integer n | keyword name | nil => exact agree_pure _

theorem agree_define (host : Host) (budget : Nat) {span span' : Span} (ht : src.slice span = src'.slice span')
    (name : Name) (v : Value) : Agree S F (define host budget src span name v) (define host budget src' span' name v) := by
  intro s
  rw [define_run, define_run, ht]
  split
  · exact ⟨rfl, .error .exhausted⟩
  · exact ⟨rfl, .ok ()⟩

/-! ### Shapes -/

theorem forall₂_pair {α β : Type} {R : α → β → Prop} {a b : α} {bs : List β} (h : List.Forall₂ R [a, b] bs) :
    ∃ a' b', R a a' ∧ R b b' ∧ bs = [a', b'] := by
  obtain ⟨a', cs, ha, hcs, rfl⟩ := List.forall₂_cons_left_iff.mp h
  obtain ⟨b', ds, hb, hds, rfl⟩ := List.forall₂_cons_left_iff.mp hcs
  cases hds
  exact ⟨a', b', ha, hb, rfl⟩

theorem matched_form {head : Span} {a : Atom} {args items' : List Expr}
    (h : List.Forall₂ (Expr.Matched L G) (.atom head a :: args) items') :
    ∃ head' args', L head head' ∧ List.Forall₂ (Expr.Matched L G) args args' ∧ items' = .atom head' a :: args' := by
  obtain ⟨e', args', he, hargs, rfl⟩ := List.forall₂_cons_left_iff.mp h
  cases he with
  | @atom _ head' _ hhead => exact ⟨head', args', hhead, hargs, rfl⟩

/-- What is refused under a condition that the two share. -/
theorem refused_unless {span span' blamed : Span} {c cause : EvalCause} {p : Prop} [Decidable p] (hs : S span span')
    (h : (if p then none else some (span, c)) = some (blamed, cause)) :
    ∃ blamed', (if p then none else some (span', c)) = some (blamed', cause) ∧ S blamed blamed' := by
  by_cases hp : p
  · rw [if_pos hp] at h
    cases h
  · rw [if_neg hp] at h ⊢
    cases h
    exact ⟨span', rfl, hs⟩

/-- A `let` of another shape than its own is refused as a whole. -/
theorem bind_refusal?_matched {span span' blamed head head' : Span} {args args' : List Expr} {cause : EvalCause}
    (hs : S span span') (hargs : List.Forall₂ (Expr.Matched L G) args args')
    (h : refusal? span (.atom head (.operator .bind) :: args) = some (blamed, cause)) :
    ∃ blamed', refusal? span' (.atom head' (.operator .bind) :: args') = some (blamed', cause) ∧ S blamed blamed' := by
  cases hargs with
  | nil => cases h; exact ⟨_, rfl, hs⟩
  | cons ha hrest =>
    cases hrest with
    | nil => cases ha <;> cases h <;> exact ⟨_, rfl, hs⟩
    | cons hb hmore =>
      cases hmore with
      | cons _ _ => cases ha <;> cases h <;> exact ⟨_, rfl, hs⟩
      | nil =>
        cases ha with
        | atom a _ => cases h; exact ⟨_, rfl, hs⟩
        | group b _ hslots =>
          simp only [refusal?, hslots.length_eq] at h ⊢
          exact refused_unless hs h

/-- The strings of an expression stand at spans in `R`. -/
def StringsIn (R : Span → Prop) (e : Expr) : Prop := ∀ span, .atom span .string ∈ e.nodes → R span

theorem StringsIn.item {R : Span → Prop} {span : Span} {b : Bracket} {items : List Expr} {e : Expr}
    (h : StringsIn R (.group span b items)) (he : e ∈ items) : StringsIn R e :=
  fun at_ hs => h at_ (List.mem_cons_of_mem _ (Expr.mem_nodesEach he hs))

variable (hL : ∀ s s', L s s' → src.SameText src' s s' ∧ S s s') (hG : ∀ s s', G s s' → S s s')

include hL hG

theorem span_matched {e e' : Expr} (h : e.Matched L G e') : S e.span e'.span :=
  Expr.span_of_matched h (fun s s' hs => (hL s s' hs).2) hG

theorem agree_nameOf {e e' : Expr} (h : e.Matched L G e') : Agree S F (nameOf e) (nameOf e') := by
  have hspan := span_matched hL hG h
  cases h with
  | group b _ _ => exact agree_fail hspan _
  | atom a _ =>
    cases a with
    | symbol name => exact agree_pure name
    | _ => exact agree_fail hspan _

/-- What is refused for its shape is refused at the corresponding span. -/
theorem refusal?_matched {span span' blamed : Span} {items items' : List Expr} {cause : EvalCause} (hs : S span span')
    (hi : List.Forall₂ (Expr.Matched L G) items items') (h : refusal? span items = some (blamed, cause)) :
    ∃ blamed', refusal? span' items' = some (blamed', cause) ∧ S blamed blamed' := by
  cases hi with
  | nil => cases h; exact ⟨span', rfl, hs⟩
  | @cons e e' args args' he hargs =>
    have hspan := span_matched hL hG he
    cases he with
    | group b _ _ => cases h; exact ⟨_, rfl, hspan⟩
    | @atom at_ at_' a _ =>
      cases a with
      | symbol name => cases h
      | operator op =>
        cases op with
        | define | choose =>
          simp only [refusal?, hargs.length_eq] at h ⊢
          exact refused_unless hs h
        | bind => exact bind_refusal?_matched hs hargs h
      | _ => cases h; exact ⟨_, rfl, hspan⟩

/-! ### Forms -/

omit hL hG in
/-- Matching expressions are evaluated alike. -/
def AgreeAt (host : Host) (src src' : Source) (L G S : Span → Span → Prop) (F : Fault → Fault → Prop) (R : Span → Prop)
    (budget : Nat) (e : Expr) : Prop :=
  StringsIn R e → ∀ e', e.Matched L G e' → Agree S F (eval host src budget e) (eval host src' budget e')

variable {host : Host} {R : Span → Prop} (hF : ∀ f, F f f) {budget : Nat} {span head : Span}

include hF

omit hF in
theorem agree_defineForm {target value : Expr} (hvalue : ∀ b, AgreeAt host src src' L G S F R b value) :
    AgreeAt host src src' L G S F R budget (.group span .round [.atom head (.operator .define), target, value]) := by
  intro hstrings e' h
  have hstring : StringsIn R value := hstrings.item (by simp)
  cases h with
  | group _ _ hi =>
    obtain ⟨head', args', -, hargs, rfl⟩ := matched_form hi
    obtain ⟨target', value', ht, hv, rfl⟩ := forall₂_pair hargs
    rw [eval, eval]
    refine agree_bind (agree_spend _ _) fun left => ?_
    have hname := agree_nameOf (F := F) hL hG ht
    cases ht with
    | group b hspan _ =>
      -- a group is no name: it is refused before its spelling would be recorded
      exact agree_fail (hG _ _ hspan) _
    | atom a hspan =>
      refine agree_bind hname fun name => agree_bind (hvalue left hstring value' hv) fun v => ?_
      exact agree_bind (agree_define host left (hL _ _ hspan).1.slice name v) fun _ => agree_pure v

omit hL hG hF in
theorem agree_chooseForm {condition yes no : Expr} (hcondition : ∀ b, AgreeAt host src src' L G S F R b condition)
    (hyes : ∀ b, AgreeAt host src src' L G S F R b yes) (hno : ∀ b, AgreeAt host src src' L G S F R b no) :
    AgreeAt host src src' L G S F R budget (.group span .round [.atom head (.operator .choose), condition, yes, no]) := by
  intro hstrings e' h
  cases h with
  | group _ _ hi =>
    obtain ⟨head', args', -, hargs, rfl⟩ := matched_form hi
    obtain ⟨condition', branches', hc, hb, rfl⟩ := List.forall₂_cons_left_iff.mp hargs
    obtain ⟨yes', no', hy, hn, rfl⟩ := forall₂_pair hb
    rw [eval, eval]
    refine agree_bind (agree_spend _ _) fun left => ?_
    refine agree_bind (hcondition left (hstrings.item (by simp)) condition' hc) fun v => ?_
    split
    · exact hyes left (hstrings.item (by simp)) yes' hy
    · exact hno left (hstrings.item (by simp)) no' hn

omit hL hG in
theorem agree_bindForm {at_ : Span} {b : Bracket} {slots : List Expr} {body : Expr} (heven : slots.length % 2 = 0)
    (hslots : ∀ budget, (∀ e ∈ slots, StringsIn R e) → ∀ slots', List.Forall₂ (Expr.Matched L G) slots slots' →
      Agree S F (evalBindings host src budget slots) (evalBindings host src' budget slots'))
    (hbody : ∀ b, AgreeAt host src src' L G S F R b body) :
    AgreeAt host src src' L G S F R budget
      (.group span .round [.atom head (.operator .bind), .group at_ b slots, body]) := by
  intro hstrings e' h
  have hgroup : StringsIn R (.group at_ b slots) := hstrings.item (by simp)
  cases h with
  | group _ _ hi =>
    obtain ⟨head', args', -, hargs, rfl⟩ := matched_form hi
    obtain ⟨bindings', body', hg, hb, rfl⟩ := forall₂_pair hargs
    cases hg with
    | @group _ at_' _ _ slots' _ hs =>
      have heven' : slots'.length % 2 = 0 := hs.length_eq ▸ heven
      rw [eval, eval, if_pos heven, if_pos heven']
      refine agree_bind (agree_spend _ _) fun left => agree_inFrame hF host left ?_
      refine agree_bind (hslots left (fun _ => hgroup.item) slots' hs) fun _ => ?_
      exact hbody left (hstrings.item (by simp)) body' hb

theorem agree_callForm {name : Name} {args : List Expr}
    (hargs : ∀ budget, (∀ e ∈ args, StringsIn R e) → ∀ args', List.Forall₂ (Expr.Matched L G) args args' →
      Agree S F (evalEach host src budget args) (evalEach host src' budget args')) :
    AgreeAt host src src' L G S F R budget (.group span .round (.atom head (.symbol name) :: args)) := by
  intro hstrings e' h
  have hstring : ∀ arg ∈ args, StringsIn R arg := fun _ ha => hstrings.item (List.mem_cons_of_mem _ ha)
  cases h with
  | group _ hspan hi =>
    obtain ⟨head', args', hhead, hmatched, rfl⟩ := matched_form hi
    obtain ⟨ht, hs⟩ := hL _ _ hhead
    rw [eval, eval]
    refine agree_bind (agree_lookup ht hs name) fun v => ?_
    split
    · refine agree_bind (agree_spend _ _) fun left => agree_bind (hargs left hstring args' hmatched) fun vs => ?_
      exact agree_call hF host left (hG _ _ hspan) _ vs
    · exact agree_fail hs _

/-! ### All expressions -/

/-- Faults correspond to themselves, and those of strings without room to each other. -/
theorem agree_evaluators (hR : ∀ s s', L s s' → R s → s.hi - 1 < s.lo + 1 → F (noRoom s) (noRoom s')) (host : Host) :
    (∀ budget e, AgreeAt host src src' L G S F R budget e) ∧
    (∀ budget es, (∀ e ∈ es, StringsIn R e) → ∀ es', List.Forall₂ (Expr.Matched L G) es es' →
      Agree S F (evalEach host src budget es) (evalEach host src' budget es')) ∧
    ∀ budget slots, (∀ e ∈ slots, StringsIn R e) → ∀ slots', List.Forall₂ (Expr.Matched L G) slots slots' →
      Agree S F (evalBindings host src budget slots) (evalBindings host src' budget slots') := by
  refine eval_induction ?atom ?vector ?refused ?define ?choose ?bind ?call ?nil ?cons ?slot ?done
  case atom =>
    intro budget span a hstrings e' h
    cases h with
    | atom _ hspan =>
      obtain ⟨ht, hs⟩ := hL _ _ hspan
      rw [eval, eval]
      refine agree_evalAtom hF ht hs fun ha => hR _ _ hspan (hstrings span ?_)
      rw [ha]
      exact Expr.mem_nodes_self _
  case vector =>
    intro budget span items ih hstrings e' h
    cases h with
    | group _ _ hi =>
      rw [eval, eval]
      refine agree_bind (agree_spend _ _) fun left => ?_
      exact agree_bind (ih left (fun _ => hstrings.item) _ hi) fun vs => agree_pure _
  case refused =>
    intro budget span items blamed cause hr _ e' h
    cases h with
    | group _ hspan hi =>
      obtain ⟨blamed', hr', hs⟩ := refusal?_matched hL hG (hG _ _ hspan) hi hr
      rw [eval_refused host src budget hr, eval_refused host src' budget hr']
      exact agree_fail hs cause
  case define => exact fun _ _ _ _ _ ih => agree_defineForm hL hG ih
  case choose => exact fun _ _ _ _ _ _ ihc ihy ihn => agree_chooseForm ihc ihy ihn
  case bind => exact fun _ _ _ _ _ _ _ heven ihs ihb => agree_bindForm hF heven ihs ihb
  case call => exact fun _ _ _ _ _ ih => agree_callForm hL hG hF ih
  case nil =>
    intro budget _ es' h
    cases h
    rw [evalEach, evalEach]
    exact agree_pure _
  case cons =>
    intro budget e es ihe ihes hstrings es' h
    obtain ⟨hstring, hrest⟩ := List.forall_mem_cons.mp hstrings
    cases h with
    | cons he hes =>
      rw [evalEach, evalEach]
      exact agree_bind (ihe hstring _ he) fun v => agree_bind (ihes hrest _ hes) fun vs => agree_pure _
  case slot =>
    intro budget target value rest ihv ihr hstrings slots' h
    obtain ⟨-, hvalue, hrest⟩ : _ ∧ StringsIn R value ∧ ∀ e ∈ rest, StringsIn R e := by simpa using hstrings
    obtain ⟨target', slots', ht, hslots, rfl⟩ := List.forall₂_cons_left_iff.mp h
    obtain ⟨value', rest', hv, hr, rfl⟩ := List.forall₂_cons_left_iff.mp hslots
    rw [evalBindings, evalBindings]
    refine agree_bind (agree_nameOf hL hG ht) fun name => agree_bind (ihv hvalue value' hv) fun v => ?_
    exact agree_bind (agree_bindName name v) fun _ => ihr hrest rest' hr
  case done =>
    intro budget slots hlen _ slots' h
    have hlen' : slots'.length < 2 := h.length_eq ▸ hlen
    rw [evalBindings_done host src budget hlen, evalBindings_done host src' budget hlen']
    exact agree_pure _

end

end Eval

end LineLisp
