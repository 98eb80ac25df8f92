/-
  LineLisp.Proofs.Spelled.Reading — reading with a table of names and reading with
  texts go the same way.

  Token by token the reader with names does what the reader with texts does, in the
  same groups (`step_spells`); it stops at the same place with the same failure, or
  with an expression that its table spells out as the other's (`read_spells`).
  Whatever the line, the table only grows.
-/

import LineLisp.Proofs.Spelled.Spelling

namespace LineLisp

variable {t u : NameTable}

/-! ## Tokens -/

def Token.spelled? (t : NameTable) : Token → Option Spelled.Token
  | .opener b => some (.opener b)
  | .closer b => some (.closer b)
  | .integer n => some (.atom (.integer n))
  | .string => some (.atom .string)
  | .keyword name => (t.text? name).map fun text => .atom (.keyword text)
  | .symbol name => (t.text? name).map fun text => .atom (.symbol text)
  | .bool b => some (.atom (.bool b))
  | .nil => some (.atom .nil)
  | .operator op => some (.atom (.operator op))

theorem Token.spelled?_keyword (t : NameTable) (text : Glyphs) :
    (Token.keyword (t.intern text).1).spelled? (t.intern text).2 = some (.atom (.keyword text)) := by
  rw [spelled?, NameTable.text?_intern]
  rfl

theorem Token.spelled?_symbol (t : NameTable) (text : Glyphs) :
    (Token.symbol (t.intern text).1).spelled? (t.intern text).2 = some (.atom (.symbol text)) := by
  rw [spelled?, NameTable.text?_intern]
  rfl

/-- The same keys lead to related entries. -/
theorem lookup_rel {κ α β : Type} [BEq κ] {R : α → β → Prop} {ps : List (κ × α)} {qs : List (κ × β)}
    (h : List.Forall₂ (fun p q => p.1 = q.1 ∧ R p.2 q.2) ps qs) (k : κ) :
    Option.Rel R (ps.lookup k) (qs.lookup k) := by
  induction h with
  | nil => exact Option.Rel.none
  | @cons p q ps qs hp _ ih =>
    rw [List.lookup_cons, List.lookup_cons, ← hp.1]
    cases k == p.1 with
    | true => exact Option.Rel.some hp.2
    | false => exact ih

theorem Token.reserved?_spells (t : NameTable) (word : String) :
    Option.Rel (fun tok a => tok.spelled? t = some (.atom a)) (Token.reserved? word)
      (Spelled.reserved.lookup word) := by
  refine lookup_rel ?_ word
  exact .cons ⟨rfl, rfl⟩ <| .cons ⟨rfl, rfl⟩ <| .cons ⟨rfl, rfl⟩ <| .cons ⟨rfl, rfl⟩ <| .cons ⟨rfl, rfl⟩ <|
    .cons ⟨rfl, rfl⟩ .nil

namespace Lexeme

/-- A token and the table after it, against the token that the same lexeme is with texts. -/
def TokenSpells (t : NameTable) (p : Token × NameTable) (tok : Spelled.Token) : Prop :=
  t.Grows p.2 ∧ p.1.spelled? p.2 = some tok

theorem wordToken_spells (t : NameTable) (x : Lexeme) :
    SameOutcome (fun p a => TokenSpells t p (.atom a)) (x.wordToken t) (Spelled.wordAtom x) := by
  have hr := Token.reserved?_spells t (String.ofList x.text)
  unfold wordToken Spelled.wordAtom
  generalize Token.reserved? (String.ofList x.text) = r, Spelled.reserved.lookup (String.ofList x.text) = r' at hr ⊢
  cases hr with
  | some h => exact SameOutcome.ok ⟨t.grows_refl, h⟩
  | none =>
    simp only
    by_cases hnum : isNumber x.text
    · rw [if_pos hnum, if_pos hnum]
      by_cases hlong : (unsigned x.text).length > maxDigits
      · rw [if_pos hlong, if_pos hlong]
        exact SameOutcome.error _
      · rw [if_neg hlong, if_neg hlong]
        by_cases hw : InWord (numberValue x.text)
        · rw [if_pos hw, if_pos hw]
          exact SameOutcome.ok ⟨t.grows_refl, rfl⟩
        · rw [if_neg hw, if_neg hw]
          exact SameOutcome.error _
    · rw [if_neg hnum, if_neg hnum]
      by_cases hstart : startsLikeNumber x.text
      · rw [if_pos hstart, if_pos hstart]
        exact SameOutcome.error _
      · rw [if_neg hstart, if_neg hstart]
        exact SameOutcome.ok ⟨t.grows_intern _, Token.spelled?_symbol t _⟩

theorem token_spells (t : NameTable) (x : Lexeme) :
    SameOutcome (TokenSpells t) (x.token t) (Spelled.token x) := by
  unfold token Spelled.token
  cases x.shape with
  | opener b | closer b | string => exact SameOutcome.ok ⟨t.grows_refl, rfl⟩
  | openString => exact SameOutcome.error _
  | keyword =>
    simp only
    cases x.text.tail with
    | nil => exact SameOutcome.error _
    | cons c cs => exact SameOutcome.ok ⟨t.grows_intern _, Token.spelled?_keyword t _⟩
  | word =>
    have hw := wordToken_spells t x
    simp only
    generalize x.wordToken t = r, Spelled.wordAtom x = r' at hw ⊢
    cases hw with
    | error f => exact SameOutcome.error f
    | ok h => exact SameOutcome.ok h

end Lexeme

/-! ## Groups -/

structure OpenGroup.Spells (t : NameTable) (g : OpenGroup) (h : Spelled.OpenGroup) : Prop where
  opener : g.opener = h.opener
  bracket : g.bracket = h.bracket
  items : Expr.spelledEach? t g.items = some h.items

namespace Reader

inductive Progress.Spells (t : NameTable) : Progress → Spelled.Progress → Prop
  | pending {gs : List OpenGroup} {hs : List Spelled.OpenGroup} (h : List.Forall₂ (OpenGroup.Spells t) gs hs) :
    Spells t (.pending gs) (.pending hs)
  | complete {e : Expr} {f : Spelled.Expr} (h : e.spelled? t = some f) : Spells t (.complete e) (.complete f)

variable {gs : List OpenGroup} {hs : List Spelled.OpenGroup}

theorem groups_of_grows (h : t.Grows u) (hg : List.Forall₂ (OpenGroup.Spells t) gs hs) :
    List.Forall₂ (OpenGroup.Spells u) gs hs :=
  hg.imp fun _ _ hgh => ⟨hgh.opener, hgh.bracket, Expr.spelledEach?_of_grows h hgh.items⟩

theorem place_spells {e : Expr} {f : Spelled.Expr} (he : e.spelled? t = some f)
    (hg : List.Forall₂ (OpenGroup.Spells t) gs hs) : Progress.Spells t (place e gs) (Spelled.place f hs) := by
  cases hg with
  | nil => exact Progress.Spells.complete he
  | cons hgh hrest =>
    refine Progress.Spells.pending (List.Forall₂.cons ⟨hgh.opener, hgh.bracket, ?_⟩ hrest)
    exact Expr.spelledEach?_cons_eq_some.mpr ⟨_, _, he, hgh.items, rfl⟩

theorem atHead_spells (hg : List.Forall₂ (OpenGroup.Spells t) gs hs) : atHead gs = Spelled.atHead hs := by
  cases hg with
  | nil => rfl
  | @cons g h _ _ hgh _ =>
    rcases g with ⟨o, b, items⟩
    rcases h with ⟨o', b', items'⟩
    have hb : b = b' := hgh.bracket
    have hlen : items.length = items'.length := Expr.length_of_spelledEach? hgh.items
    subst hb
    cases b with
    | square => rfl
    | round =>
      cases items with
      | nil => rw [List.eq_nil_of_length_eq_zero hlen.symm]; rfl
      | cons e es =>
        cases items' with
        | nil => simp at hlen
        | cons f fs => rfl

theorem spelledEach?_reverse {es : List Expr} {fs : List Spelled.Expr} (h : Expr.spelledEach? t es = some fs) :
    Expr.spelledEach? t es.reverse = some fs.reverse :=
  Expr.spelledEach?_eq_some_iff.mpr (List.forall₂_reverse_iff.mpr (Expr.spelledEach?_eq_some_iff.mp h))

/-- An atom that is no operator goes where it stands. -/
theorem step_atom_spells {line at_ : Span} {tok : Token} {a : Atom} {b : Spelled.Atom}
    (hg : List.Forall₂ (OpenGroup.Spells t) gs hs) (ha : a.spelled? t = some b)
    (hstep : step line gs ⟨tok, at_⟩ = .ok (place (.atom at_ a) gs))
    (hstep' : Spelled.step line hs at_ (.atom b) = .ok (Spelled.place (.atom at_ b) hs)) :
    SameOutcome (Progress.Spells t) (step line gs ⟨tok, at_⟩) (Spelled.step line hs at_ (.atom b)) := by
  have he : (Expr.atom at_ a).spelled? t = some (.atom at_ b) := by
    rw [Expr.spelled?, ha]
    rfl
  rw [hstep, hstep']
  exact SameOutcome.ok (place_spells he hg)

theorem step_spells (line at_ : Span) {tok : Token} {tok' : Spelled.Token}
    (hg : List.Forall₂ (OpenGroup.Spells t) gs hs) (ht : tok.spelled? t = some tok') :
    SameOutcome (Progress.Spells t) (step line gs ⟨tok, at_⟩) (Spelled.step line hs at_ tok') := by
  cases tok with
  | opener b =>
    cases ht
    simp only [step, Spelled.step, hg.length_eq]
    split
    · exact SameOutcome.error _
    · exact SameOutcome.ok (.pending (List.Forall₂.cons ⟨rfl, rfl, rfl⟩ hg))
  | closer b =>
    cases ht
    cases hg with
    | nil => exact SameOutcome.error _
    | @cons g h _ _ hgh hrest =>
      simp only [step, Spelled.step, hgh.opener, hgh.bracket]
      split
      · have he : (Expr.group (h.opener.join at_) b g.items.reverse).spelled? t
            = some (.group (h.opener.join at_) b h.items.reverse) := by
          rw [Expr.spelled?, spelledEach?_reverse hgh.items]
          rfl
        exact SameOutcome.ok (place_spells he hrest)
      · exact SameOutcome.error _
  | operator op =>
    cases ht
    simp only [step, Spelled.step, atHead_spells hg]
    split
    · exact SameOutcome.ok (place_spells rfl hg)
    · exact SameOutcome.error _
  | keyword name | symbol name =>
    obtain ⟨text, hn, rfl⟩ := Option.map_eq_some_iff.mp ht
    refine step_atom_spells hg ?_ rfl rfl
    rw [Atom.spelled?, hn]
    rfl
  | integer n | string | bool b | nil =>
    cases ht
    exact step_atom_spells hg rfl rfl rfl

theorem endError_spells (eof : Span) (hg : List.Forall₂ (OpenGroup.Spells t) gs hs) :
    endError eof gs = Spelled.endError eof hs := by
  cases hg with
  | nil => rfl
  | cons hgh _ => rw [endError, Spelled.endError, hgh.opener]

/-! ## Lines -/

/-- What reading with a table comes to, against reading with texts: the table has
    grown, and spells out the expression if there is one. -/
def Spells (t : NameTable) (r : Except ReadFailure Expr × NameTable) (r' : Except ReadFailure Spelled.Expr) :
    Prop :=
  t.Grows r.2 ∧ SameOutcome (fun e f => e.spelled? r.2 = some f) r.1 r'

theorem finish_spells {e : Expr} {f : Spelled.Expr} (he : e.spelled? t = some f) (xs : List Lexeme) :
    Spells t (finish e t xs) (Spelled.finish f xs) := by
  cases xs with
  | nil => exact ⟨t.grows_refl, SameOutcome.ok he⟩
  | cons x xs =>
    have hx := x.token_spells t
    simp only [finish, Spelled.finish]
    generalize x.token t = r, Spelled.token x = r' at hx ⊢
    cases hx with
    | error e => exact ⟨t.grows_refl, SameOutcome.error e⟩
    | ok h => exact ⟨h.1, SameOutcome.error _⟩

theorem readFrom_spells (line eof : Span) (xs : List Lexeme) :
    ∀ {t : NameTable} {gs : List OpenGroup} {hs : List Spelled.OpenGroup},
      List.Forall₂ (OpenGroup.Spells t) gs hs →
      Spells t (readFrom line eof t gs xs) (Spelled.readFrom line eof hs xs) := by
  induction xs with
  | nil =>
    intro t gs hs hg
    rw [readFrom, Spelled.readFrom, endError_spells eof hg]
    exact ⟨t.grows_refl, SameOutcome.error _⟩
  | cons x xs ih =>
    intro t gs hs hg
    have hx := x.token_spells t
    unfold readFrom Spelled.readFrom
    generalize x.token t = r, Spelled.token x = r' at hx ⊢
    cases hx with
    | error e => exact ⟨t.grows_refl, SameOutcome.error e⟩
    | @ok p tok h =>
      obtain ⟨hgrow, htok⟩ := h
      have hs := step_spells line x.span (groups_of_grows hgrow hg) htok
      simp only
      generalize step line gs ⟨p.1, x.span⟩ = r, Spelled.step line _ x.span tok = r' at hs ⊢
      cases hs with
      | error e => exact ⟨hgrow, SameOutcome.error _⟩
      | ok h =>
        cases h with
        | pending hg' => exact ⟨hgrow.trans (ih hg').1, (ih hg').2⟩
        | complete he => exact ⟨hgrow.trans (finish_spells he xs).1, (finish_spells he xs).2⟩

end Reader

/-- Reading a line with a table comes to what reading it with texts comes to. -/
theorem Source.read_spells (src : Source) (t : NameTable) : Reader.Spells t (src.read t) (Spelled.read src) :=
  Reader.readFrom_spells src.span src.eof src.lexemes List.Forall₂.nil

end LineLisp
