/-
  LineLisp.Proofs.Expr.Acceptance — the reader accepts its grammar, and what it
  returns is the tree of the tokens.

      expression  =  atom  |  '(' [operator] expression* ')'  |  '[' expression* ']'

  `Sentence depth` are the expressions whose brackets nest at most `depth` deep, and
  `Body depth b` is what may stand between the brackets `b`: the items so far, also
  while the group is still open (`Body.snoc`).

  `readTokens?` is the reader on tokens that are there already; reading a line is that,
  if all of the line has tokens (`readFrom_eq_ok_iff`). Completeness is by induction on
  the sentence, for any groups around it and any tokens after it
  (`readTokens?_sentence`). Soundness is an invariant of the open groups: together
  they hold the tokens read so far, in order (`Pending`), and every token keeps it
  (`step_pending`).
-/

import LineLisp.Expr.Reader
import LineLisp.Proofs.Expr.Flattening

namespace LineLisp

/-! ## The grammar -/

/-- A token that is an expression by itself. -/
def Token.isAtom : Token → Bool
  | .opener _ | .closer _ | .operator _ => false
  | _ => true

namespace Grammar

/-- What may stand between an opener and the first expression after it. -/
inductive Head : Bracket → List Token → Prop
  | none (b : Bracket) : Head b []
  | operator (op : Operator) : Head .round [.operator op]

inductive Sentence : Nat → List Token → Prop
  | atom {depth : Nat} {t : Token} : t.isAtom = true → Sentence depth [t]
  | group {depth : Nat} {b : Bracket} {head : List Token} {parts : List (List Token)} :
      Head b head → (∀ p ∈ parts, Sentence depth p) →
      Sentence (depth + 1) (.opener b :: (head ++ parts.flatten ++ [.closer b]))

/-- A head and expressions. -/
def Body (depth : Nat) (b : Bracket) (ts : List Token) : Prop :=
  ∃ (head : List Token) (parts : List (List Token)),
    Head b head ∧ (∀ p ∈ parts, Sentence depth p) ∧ ts = head ++ parts.flatten

theorem Body.empty (depth : Nat) (b : Bracket) : Body depth b [] :=
  ⟨[], [], .none b, fun _ h => (nomatch h), rfl⟩

theorem Body.operator (depth : Nat) (op : Operator) : Body depth .round [.operator op] :=
  ⟨_, [], .operator op, fun _ h => (nomatch h), rfl⟩

theorem Body.snoc {depth : Nat} {b : Bracket} {ts us : List Token} (h : Body depth b ts)
    (hu : Sentence depth us) : Body depth b (ts ++ us) := by
  obtain ⟨head, parts, hh, hp, rfl⟩ := h
  refine ⟨head, parts ++ [us], hh, fun p hm => ?_, by simp⟩
  rcases List.mem_append.mp hm with hm | hm
  · exact hp p hm
  · rw [List.mem_singleton.mp hm]; exact hu

theorem Body.sentence {depth : Nat} {b : Bracket} {ts : List Token} (h : Body depth b ts) :
    Sentence (depth + 1) (.opener b :: (ts ++ [.closer b])) := by
  obtain ⟨head, parts, hh, hp, rfl⟩ := h
  exact .group hh hp

end Grammar

namespace Reader

open Grammar

variable (line : Span)

/-! ## Reading tokens -/

/-- The expression that tokens complete, read with some groups open. -/
def readTokens? : List OpenGroup → List PlacedToken → Option Expr
  | _, [] => none
  | groups, t :: ts =>
    match step line groups t with
    | .error _ => none
    | .ok (.pending groups) => readTokens? groups ts
    | .ok (.complete e) => if ts.isEmpty then some e else none

/-- Going on after a token. -/
def resume? : Progress → List PlacedToken → Option Expr
  | .pending groups, ts => readTokens? line groups ts
  | .complete e, ts => if ts.isEmpty then some e else none

theorem readTokens?_cons {groups : List OpenGroup} {t : PlacedToken} {p : Progress}
    (h : step line groups t = .ok p) (ts : List PlacedToken) :
    readTokens? line groups (t :: ts) = resume? line p ts := by
  rw [readTokens?, h]
  cases p <;> rfl

theorem resume?_of_readTokens? {groups : List OpenGroup} {t : PlacedToken} {ts : List PlacedToken} {e : Expr}
    (h : readTokens? line groups (t :: ts) = some e) :
    ∃ p, step line groups t = .ok p ∧ resume? line p ts = some e := by
  cases hs : step line groups t with
  | error f => rw [readTokens?, hs] at h; cases h
  | ok p => exact ⟨p, rfl, readTokens?_cons line hs ts ▸ h⟩

/-- Nothing follows if there are no more tokens, and no more failures. -/
theorem finish_eq_ok_iff {names : NameTable} {xs : List Lexeme} {e f : Expr} :
    (finish e names xs).1 = .ok f ↔
      (tokens names xs).2.1 = none ∧ (if (tokens names xs).1.isEmpty then some e else none) = some f := by
  cases xs with
  | nil => simp [finish, tokens]
  | cons x xs =>
    cases hx : x.token names with
    | error f => simp [finish, hx, tokens_cons_error hx]
    | ok r => simp [finish, hx, tokens_cons_ok hx]

/-- A line is read if all of it has tokens and these can be read. -/
theorem readFrom_eq_ok_iff {eof : Span} {names : NameTable} {groups : List OpenGroup} {xs : List Lexeme}
    {e : Expr} : (readFrom line eof names groups xs).1 = .ok e ↔
      (tokens names xs).2.1 = none ∧ readTokens? line groups (tokens names xs).1 = some e := by
  induction xs generalizing names groups with
  | nil => simp [readFrom, tokens, readTokens?]
  | cons x xs ih =>
    cases hx : x.token names with
    | error f => simp [readFrom, hx, tokens_cons_error hx]
    | ok r =>
      simp only [readFrom, hx, tokens_cons_ok hx, readTokens?]
      cases step line groups ⟨r.1, x.span⟩ with
      | error f => simp
      | ok p =>
        cases p with
        | pending groups => exact ih
        | complete e' => exact finish_eq_ok_iff

/-! ## Completeness -/

theorem step_atom (groups : List OpenGroup) {t : PlacedToken} (h : t.token.isAtom = true) :
    ∃ e, step line groups t = .ok (place e groups) := by
  rcases t with ⟨t, span⟩
  cases t <;> first | exact ⟨_, rfl⟩ | cases h

/-- A head goes into the group that it stands in. -/
theorem readTokens?_head {b : Bracket} {head : List Token} (h : Head b head) (opener : Span)
    (outer : List OpenGroup) {ts : List PlacedToken} (hts : ts.map (·.token) = head) :
    ∃ items, ∀ rest, readTokens? line (⟨opener, b, []⟩ :: outer) (ts ++ rest)
      = readTokens? line (⟨opener, b, items⟩ :: outer) rest := by
  cases h with
  | none =>
    rw [List.map_eq_nil_iff.mp hts]
    exact ⟨[], fun _ => rfl⟩
  | operator op =>
    obtain ⟨t, rfl, ht⟩ := List.map_eq_singleton_iff.mp hts
    refine ⟨[.atom t.span (.operator op)], fun rest => ?_⟩
    have hs : step line (⟨opener, .round, []⟩ :: outer) t
        = .ok (place (.atom t.span (.operator op)) (⟨opener, .round, []⟩ :: outer)) := by
      simp only [step, ht, atHead, if_true]
    exact readTokens?_cons line hs rest

/-- Parts that are each read as an item are read as items, one after another. -/
theorem readTokens?_parts {opener : Span} {b : Bracket} {outer : List OpenGroup} {parts : List (List Token)}
    (h : ∀ p ∈ parts, ∀ (items : List Expr) (us : List PlacedToken), us.map (·.token) = p →
      ∃ e, ∀ rest, readTokens? line (⟨opener, b, items⟩ :: outer) (us ++ rest)
        = readTokens? line (⟨opener, b, e :: items⟩ :: outer) rest)
    (items : List Expr) {ts : List PlacedToken} (hts : ts.map (·.token) = parts.flatten) :
    ∃ items', ∀ rest, readTokens? line (⟨opener, b, items⟩ :: outer) (ts ++ rest)
      = readTokens? line (⟨opener, b, items'⟩ :: outer) rest := by
  induction parts generalizing items ts with
  | nil =>
    rw [List.map_eq_nil_iff.mp hts]
    exact ⟨items, fun _ => rfl⟩
  | cons p parts ih =>
    obtain ⟨us, vs, rfl, hu, hv⟩ := List.map_eq_append_iff.mp hts
    obtain ⟨e, he⟩ := h p (by simp) items us hu
    obtain ⟨items', hi⟩ := ih (fun q hq => h q (by simp [hq])) (e :: items) hv
    refine ⟨items', fun rest => ?_⟩
    rw [List.append_assoc, he, hi]

/-- A sentence is read as an expression, which goes into the groups around it. -/
theorem readTokens?_sentence {depth : Nat} {ss : List Token} (h : Sentence depth ss) (groups : List OpenGroup)
    (hroom : groups.length + depth ≤ maxOpen) {ts : List PlacedToken} (hts : ts.map (·.token) = ss) :
    ∃ e, ∀ rest, readTokens? line groups (ts ++ rest) = resume? line (place e groups) rest := by
  induction h generalizing groups ts with
  | atom ha =>
    obtain ⟨t, rfl, rfl⟩ := List.map_eq_singleton_iff.mp hts
    obtain ⟨e, he⟩ := step_atom line groups ha
    exact ⟨e, readTokens?_cons line he⟩
  | @group depth b head parts hh _ ih =>
    obtain ⟨o, us, rfl, ho, hus⟩ := List.map_eq_cons_iff.mp hts
    obtain ⟨vs, cs, rfl, hv, hc⟩ := List.map_eq_append_iff.mp hus
    obtain ⟨hs, ps, rfl, hhs, hps⟩ := List.map_eq_append_iff.mp hv
    obtain ⟨c, rfl, hct⟩ := List.map_eq_singleton_iff.mp hc
    have hopen : step line groups o = .ok (.pending (⟨o.span, b, []⟩ :: groups)) := by
      simp only [step, ho]
      rw [if_neg (by omega)]
    obtain ⟨items, hitems⟩ := readTokens?_head line hh o.span groups hhs
    obtain ⟨items', hitems'⟩ := readTokens?_parts line
      (fun p hp its ts hts => ih p hp (⟨o.span, b, its⟩ :: groups) (by simp only [List.length_cons]; omega) hts)
      items hps
    have hclose : step line (⟨o.span, b, items'⟩ :: groups) c
        = .ok (place (.group (o.span.join c.span) b items'.reverse) groups) := by
      simp only [step, hct, if_true]
    refine ⟨.group (o.span.join c.span) b items'.reverse, fun rest => ?_⟩
    rw [List.cons_append, readTokens?_cons line hopen, List.append_assoc, List.append_assoc]
    show readTokens? line _ _ = _
    rw [hitems, hitems']
    exact readTokens?_cons line hclose rest

/-! ## Soundness -/

/-- Open groups that hold these tokens. The opener of a group has as much room after
    it as the limit leaves. -/
inductive Pending : List OpenGroup → List PlacedToken → Prop
  | none : Pending [] []
  | group {outer : List OpenGroup} {before inside : List PlacedToken} {opener : Span} {b : Bracket}
      {items : List Expr} {room : Nat} : Pending outer before → outer.length + 1 + room = maxOpen →
      opener = Span.ofLength opener.lo 1 → Expr.flattenEach? items.reverse = some inside →
      Body room b (inside.map (·.token)) →
      Pending (⟨opener, b, items⟩ :: outer) (before ++ ⟨.opener b, opener⟩ :: inside)

/-- What the reader has after these tokens. -/
inductive Holds : Progress → List PlacedToken → Prop
  | pending {groups : List OpenGroup} {ts : List PlacedToken} : Pending groups ts → Holds (.pending groups) ts
  | complete {e : Expr} {ts : List PlacedToken} : e.flatten? = some ts →
      Sentence maxOpen (ts.map (·.token)) → Holds (.complete e) ts

/-- A sentence that fits goes into the innermost group. -/
theorem holds_place {groups : List OpenGroup} {before ts : List PlacedToken} {e : Expr} {room : Nat}
    (h : Pending groups before) (hroom : groups.length + room = maxOpen) (he : e.flatten? = some ts)
    (hs : Sentence room (ts.map (·.token))) : Holds (place e groups) (before ++ ts) := by
  cases h with
  | none =>
    have hr : room = maxOpen := by simpa using hroom
    subst hr
    exact .complete he hs
  | @group outer before inside opener b items room' hp hr ho hi hb =>
    have hrr : room = room' := by simp only [List.length_cons] at hroom; omega
    subst hrr
    rw [List.append_assoc, List.cons_append]
    refine .pending (.group hp hr ho ?_ ?_)
    · rw [List.reverse_cons]
      exact Expr.flattenEach?_append hi (Expr.flattenEach?_singleton he)
    · rw [List.map_append]
      exact hb.snoc hs

theorem Pending.length_le {groups : List OpenGroup} {ts : List PlacedToken} (h : Pending groups ts) :
    groups.length ≤ maxOpen := by
  cases h with
  | none => exact Nat.zero_le _
  | group _ hr => simp only [List.length_cons]; omega

/-- An atom goes into the innermost group. -/
theorem holds_place_atom {groups : List OpenGroup} {before : List PlacedToken} {t : PlacedToken} {a : Atom}
    (h : Pending groups before) (ha : a.token? = some t.token) (hs : t.token.isAtom = true) :
    Holds (place (.atom t.span a) groups) (before ++ [t]) := by
  have hroom : groups.length + (maxOpen - groups.length) = maxOpen := Nat.add_sub_cancel' h.length_le
  refine holds_place h hroom ?_ (.atom hs)
  simp only [Expr.flatten?, ha]
  rfl

/-- Every token that the reader takes is held with those before it. -/
theorem step_pending {groups : List OpenGroup} {before : List PlacedToken} {t : PlacedToken} {p : Progress}
    (h : Pending groups before) (hl : Layout (before ++ [t])) (hs : step line groups t = .ok p) :
    Holds p (before ++ [t]) := by
  have hnarrow : t.Narrow := hl.narrow t (by simp)
  rcases t with ⟨t, span⟩
  cases t with
  | opener b =>
    simp only [step] at hs
    split at hs
    · cases hs
    · cases hs
      have hroom : groups.length + 1 + (maxOpen - (groups.length + 1)) = maxOpen := by omega
      exact .pending (.group h hroom (hnarrow rfl) rfl (Body.empty _ b))
  | closer b =>
    cases h with
    | none => cases hs
    | @group outer before inside opener b' items room hp hr ho hi hb =>
      simp only [step] at hs
      split at hs
      · rename_i hbb
        change b' = b at hbb
        subst hbb
        cases hs
        have hord : PlacedToken.Before ⟨.opener b', opener⟩ ⟨.closer b', span⟩ :=
          (List.pairwise_append.mp hl.ordered).2.2 ⟨.opener b', opener⟩ (by simp) _ (List.mem_singleton_self _)
        rw [List.append_assoc, List.cons_append]
        have hroom : outer.length + (room + 1) = maxOpen := by omega
        refine holds_place hp hroom ?_ ?_
        · simp only [Expr.flatten?, hi, Option.map_some, b'.first_join ho hord, b'.last_join (hnarrow rfl) hord]
        · simpa using hb.sentence
      · cases hs
  | operator op =>
    simp only [step] at hs
    split at hs
    · rename_i hhead
      cases hs
      cases h with
      | none => cases hhead
      | @group outer before inside opener b items room hp hr ho hi hb =>
        cases b <;> cases items <;> simp only [atHead, Bool.false_eq_true] at hhead
        cases hi
        rw [List.append_assoc]
        exact .pending (.group hp hr ho rfl (Body.operator room op))
    · cases hs
  | integer n => cases hs; exact holds_place_atom h rfl rfl
  | string => cases hs; exact holds_place_atom h rfl rfl
  | keyword name => cases hs; exact holds_place_atom h rfl rfl
  | symbol name => cases hs; exact holds_place_atom h rfl rfl
  | bool b => cases hs; exact holds_place_atom h rfl rfl
  | nil => cases hs; exact holds_place_atom h rfl rfl

/-- Tokens that are read are a sentence, and those of the expression. -/
theorem sentence_of_readTokens? {groups : List OpenGroup} {before ts : List PlacedToken} {e : Expr}
    (h : Pending groups before) (hl : Layout (before ++ ts)) (hr : readTokens? line groups ts = some e) :
    e.flatten? = some (before ++ ts) ∧ Sentence maxOpen ((before ++ ts).map (·.token)) := by
  induction ts generalizing groups before with
  | nil => cases hr
  | cons t ts ih =>
    obtain ⟨p, hs, hp⟩ := resume?_of_readTokens? line hr
    have hsplit : before ++ t :: ts = (before ++ [t]) ++ ts := by simp
    rw [hsplit] at hl ⊢
    have hh := step_pending line h hl.append_left hs
    cases hh with
    | pending hg => exact ih hg hl hp
    | complete he hse =>
      rw [resume?] at hp
      split at hp
      · rename_i hts
        cases hp
        rw [List.isEmpty_iff.mp hts, List.append_nil]
        exact ⟨he, hse⟩
      · cases hp

end Reader

open Grammar

/-- A line is read exactly if all of it has tokens and these are a sentence within the
    limit; and what it is read as is the only expression with these tokens. -/
theorem Source.read_accepts_exactly_sentences (src : Source) (names : NameTable) :
    ((∃ e, (src.read names).1 = .ok e) ↔
      (src.tokens names).2.1 = none ∧ Sentence Reader.maxOpen ((src.tokens names).1.map (·.token))) ∧
    ∀ e, (src.read names).1 = .ok e →
      e.flatten? = some (src.tokens names).1 ∧ ∀ f : Expr, f.flatten? = some (src.tokens names).1 → f = e := by
  have sound : ∀ e, (src.read names).1 = .ok e → (src.tokens names).2.1 = none ∧
      e.flatten? = some (src.tokens names).1 ∧ Sentence Reader.maxOpen ((src.tokens names).1.map (·.token)) := by
    intro e he
    obtain ⟨hn, hr⟩ := (Reader.readFrom_eq_ok_iff src.span).mp he
    exact ⟨hn, Reader.sentence_of_readTokens? src.span .none (layout_tokens src names) hr⟩
  refine ⟨⟨?_, ?_⟩, ?_⟩
  · intro h
    obtain ⟨e, he⟩ := h
    exact ⟨(sound e he).1, (sound e he).2.2⟩
  · intro h
    obtain ⟨hn, hs⟩ := h
    obtain ⟨e, he⟩ := Reader.readTokens?_sentence src.span hs [] (Nat.le_of_eq (Nat.zero_add _)) rfl
    have hr := he []
    rw [List.append_nil] at hr
    exact ⟨e, (Reader.readFrom_eq_ok_iff src.span).mpr ⟨hn, hr⟩⟩
  · intro e he
    have hf := (sound e he).2.1
    exact ⟨hf, fun f hff => Expr.flatten?_injective hff hf⟩

end LineLisp
