/-
  LineLisp.Proofs.Lexeme.Tokens — the tokens of lexemes, and the names they leave.

  A token either has nothing to do with the table or is made of the name of a text that it
  interns, its own or that without the colon (`token_cases`, `names_of_token`). So tokens
  only grow the table (`grows_tokens`), and lexemes that had all their tokens have the same
  ones from a table that has their names already, which stays as it is
  (`tokens_of_grows`). A token depends on the shape and the text of its lexeme alone, so
  lexemes that differ in their places only have the same tokens (`tokens_of_key_eq`); and
  the token tells the shape (`shape_of_token`).
-/

import Mathlib.Data.List.Forall2
import LineLisp.Proofs.Lexeme.Layout
import LineLisp.Proofs.NameTable.Growth

namespace LineLisp

variable {names names' u : NameTable}

/-! ## One token -/

/-- The text that a token interns which is written with this text: that of a symbol, and
    that of a keyword without its colon. -/
def Token.nameText? (text : List Char) : Token → Option Glyphs
  | .symbol _ => some (.ofChars text)
  | .keyword _ => some (.ofChars text.tail)
  | _ => none

/-- A reserved word is no name. -/
theorem Token.nameText?_of_reserved? {word : String} {t : Token} (h : reserved? word = some t) (text : List Char) :
    t.nameText? text = none := by
  have hall : ∀ p ∈ reserved, p.2.nameText? text = none := by simp [reserved, nameText?]
  obtain ⟨l₁, l₂, hl, -⟩ := List.lookup_eq_some_iff.mp h
  exact hall (word, t) (hl ▸ by simp)

theorem Token.nameText?_eq_some {text : List Char} {t : Token} {s : Glyphs} (h : t.nameText? text = some s) :
    ∃ cs, s = .ofChars cs ∧ cs ⊆ text := by
  cases t with
  | symbol name => cases h; exact ⟨text, rfl, List.Subset.refl text⟩
  | keyword name => cases h; exact ⟨text.tail, rfl, fun _ => List.mem_of_mem_tail⟩
  | opener | closer | integer | string | bool | nil | operator => cases h

namespace Lexeme

/-- The token is the same with every table and interns nothing, or it is made of the name of
    the text that it interns; and it is the same wherever the lexeme stands. -/
theorem token_cases {shape : Shape} {text : List Char} {pos : Int} {t : Token}
    (h : token names ⟨shape, text, pos⟩ = .ok (t, names')) :
    (t.nameText? text = none ∧ names' = names ∧ ∀ pos' v, token v ⟨shape, text, pos'⟩ = .ok (t, v)) ∨
      ∃ (s : Glyphs) (ofName : Name → Token), (∀ name, (ofName name).nameText? text = some s) ∧
        t = ofName (names.intern s).1 ∧ names' = (names.intern s).2 ∧
        ∀ pos' v, token v ⟨shape, text, pos'⟩ = .ok (ofName (v.intern s).1, (v.intern s).2) := by
  cases shape with
  | opener b => cases h; exact Or.inl ⟨rfl, rfl, fun _ _ => rfl⟩
  | closer b => cases h; exact Or.inl ⟨rfl, rfl, fun _ _ => rfl⟩
  | string => cases h; exact Or.inl ⟨rfl, rfl, fun _ _ => rfl⟩
  | openString => cases h
  | keyword =>
    rcases text with _ | ⟨c, _ | ⟨d, cs⟩⟩
    · cases h
    · cases h
    · cases h
      exact Or.inr ⟨.ofChars (d :: cs), .keyword, fun _ => rfl, rfl, rfl, fun _ _ => rfl⟩
  | word =>
    simp only [token, wordToken] at h ⊢
    cases hr : Token.reserved? (String.ofList text) with
    | some k => rw [hr] at h; cases h; exact Or.inl ⟨Token.nameText?_of_reserved? hr text, rfl, fun _ _ => rfl⟩
    | none =>
      simp only [hr] at h ⊢
      by_cases hnum : isNumber text = true
      · simp only [if_pos hnum] at h ⊢
        split at h
        · cases h
        · rename_i hlen
          split at h
          · rename_i hin
            cases h
            exact Or.inl ⟨rfl, rfl, fun _ _ => by rw [if_neg hlen, if_pos hin]⟩
          · cases h
      · simp only [if_neg hnum] at h ⊢
        split at h
        · cases h
        · rename_i hb
          cases h
          exact Or.inr ⟨.ofChars text, .symbol, fun _ => rfl, rfl, rfl, fun _ _ => if_neg hb⟩

/-- A token interns its text, if it has one, and nothing else. -/
theorem names_of_token {x : Lexeme} {t : Token} (h : x.token names = .ok (t, names')) :
    names' = names.internAll (t.nameText? x.text).toList := by
  rcases token_cases h with ⟨hnone, rfl, -⟩ | ⟨s, ofName, hsome, rfl, rfl, -⟩
  · rw [hnone]
    rfl
  · rw [hsome]
    rfl

theorem grows_token {x : Lexeme} {t : Token} (h : x.token names = .ok (t, names')) : names.Grows names' := by
  rw [names_of_token h]
  exact names.grows_internAll _

/-- With a table that has the name already, the token is the same and the table stays. -/
theorem token_of_grows {x : Lexeme} {t : Token} (h : x.token names = .ok (t, names')) (hu : names'.Grows u) :
    x.token u = .ok (t, u) := by
  rcases token_cases h with ⟨-, -, hx⟩ | ⟨s, ofName, -, rfl, rfl, hx⟩
  · exact hx x.pos u
  · have hn : u.intern s = ((names.intern s).1, u) :=
      NameTable.intern_of_text? (NameTable.text?_of_grows hu (names.text?_intern s))
    have hu := hx x.pos u
    rw [hn] at hu
    exact hu

/-- What a lexeme is, apart from its place. -/
def key (x : Lexeme) : Shape × List Char := (x.shape, x.text)

theorem token_of_key_eq {x y : Lexeme} (h : x.key = y.key) {t : Token} (hx : x.token names = .ok (t, names')) :
    y.token names = .ok (t, names') := by
  obtain ⟨shape, text, pos⟩ := y
  obtain ⟨rfl, rfl⟩ : x.shape = shape ∧ x.text = text := Prod.mk.inj h
  rcases token_cases hx with ⟨-, rfl, hy⟩ | ⟨s, ofName, -, rfl, rfl, hy⟩
  · exact hy pos _
  · exact hy pos names

end Lexeme

/-! ## The shape of a token -/

/-- The shape of the lexemes that are read as this token. -/
def Token.shape : Token → Shape
  | .opener b => .opener b
  | .closer b => .closer b
  | .string => .string
  | .keyword _ => .keyword
  | .integer _ | .symbol _ | .bool _ | .nil | .operator _ => .word

/-- A reserved word is a word. -/
theorem Token.shape_of_reserved? {word : String} {t : Token} (h : reserved? word = some t) : t.shape = .word := by
  have hall : ∀ p ∈ reserved, p.2.shape = .word := by decide
  obtain ⟨l₁, l₂, hl, -⟩ := List.lookup_eq_some_iff.mp h
  exact hall (word, t) (hl ▸ by simp)

theorem Lexeme.shape_of_token {names names' : NameTable} {x : Lexeme} {t : Token}
    (h : x.token names = .ok (t, names')) : x.shape = t.shape := by
  unfold token at h
  cases hs : x.shape <;> simp only [hs] at h ⊢
  case opener b => cases h; rfl
  case closer b => cases h; rfl
  case string => cases h; rfl
  case openString => cases h
  case keyword =>
    split at h
    · cases h
    · cases h; rfl
  case word =>
    unfold wordToken at h
    split at h
    · rename_i hr; cases h; exact (Token.shape_of_reserved? hr).symm
    · repeat' split at h
      all_goals cases h
      all_goals rfl

/-! ## All tokens -/

theorem grows_tokens (names : NameTable) (xs : List Lexeme) : names.Grows (tokens names xs).2.2 := by
  induction xs generalizing names with
  | nil => exact names.grows_refl
  | cons x xs ih =>
    cases h : x.token names with
    | error f => rw [tokens_cons_error h]; exact names.grows_refl
    | ok r =>
      rw [tokens_cons_ok h]
      exact (Lexeme.grows_token h).trans (ih r.2)

theorem tokens_append {xs ys : List Lexeme} (h : (tokens names xs).2.1 = none) :
    tokens names (xs ++ ys) = ((tokens names xs).1 ++ (tokens (tokens names xs).2.2 ys).1, (tokens (tokens names xs).2.2 ys).2) := by
  induction xs generalizing names with
  | nil => rfl
  | cons x xs ih =>
    cases hx : x.token names with
    | error f => rw [tokens_cons_error hx] at h; cases h
    | ok r =>
      rw [tokens_cons_ok hx] at h
      rw [List.cons_append, tokens_cons_ok hx, tokens_cons_ok hx, ih h]
      rfl

/-- Lexemes that all had tokens have the same ones from a table that has their names,
    and add nothing to it. -/
theorem tokens_of_grows {xs : List Lexeme} (h : (tokens names xs).2.1 = none) (hu : (tokens names xs).2.2.Grows u) :
    tokens u xs = ((tokens names xs).1, none, u) := by
  induction xs generalizing names with
  | nil => rfl
  | cons x xs ih =>
    cases hx : x.token names with
    | error f => rw [tokens_cons_error hx] at h; cases h
    | ok r =>
      rw [tokens_cons_ok hx] at h hu ⊢
      have hxu : x.token u = .ok (r.1, u) := Lexeme.token_of_grows hx ((grows_tokens r.2 xs).trans hu)
      rw [tokens_cons_ok hxu, ih h hu]

/-- Lexemes that all had tokens have the same ones at other places. -/
theorem tokens_of_key_eq {R : Span → Span → Prop} {xs ys : List Lexeme}
    (h : List.Forall₂ (fun x y => x.key = y.key ∧ R x.span y.span) xs ys) (hs : (tokens names xs).2.1 = none) :
    List.Forall₂ (fun t t' => t.token = t'.token ∧ R t.span t'.span) (tokens names xs).1 (tokens names ys).1 ∧
      (tokens names ys).2 = (tokens names xs).2 := by
  induction h generalizing names with
  | nil => exact ⟨.nil, rfl⟩
  | @cons x y xs ys hxy _ ih =>
    cases hx : x.token names with
    | error f => rw [tokens_cons_error hx] at hs; cases hs
    | ok r =>
      have hy : y.token names = .ok (r.1, r.2) := Lexeme.token_of_key_eq hxy.1 hx
      rw [tokens_cons_ok hx] at hs ⊢
      rw [tokens_cons_ok hy]
      exact ⟨.cons ⟨rfl, hxy.2⟩ (ih hs).1, (ih hs).2⟩

/-- In two lists that are related one by one, every item has its partner. -/
theorem exists_of_forall₂_left {α β : Type} {R : α → β → Prop} {as : List α} {bs : List β}
    (h : List.Forall₂ R as bs) {a : α} (ha : a ∈ as) : ∃ b ∈ bs, R a b := by
  induction h with
  | nil => cases ha
  | @cons a' b' as bs hr _ ih =>
    rcases List.mem_cons.mp ha with rfl | ha
    · exact ⟨b', by simp, hr⟩
    · obtain ⟨b, hb, hr⟩ := ih ha
      exact ⟨b, by simp [hb], hr⟩

theorem forall₂_mem_left {α β : Type} {R : α → β → Prop} {as : List α} {bs : List β} (h : List.Forall₂ R as bs) :
    List.Forall₂ (fun a b => a ∈ as ∧ R a b) as bs :=
  (List.forall₂_and_left as bs).mpr ⟨fun _ ha => ha, h⟩

theorem forall₂_mem_right {α β : Type} {R : α → β → Prop} {as : List α} {bs : List β} (h : List.Forall₂ R as bs) :
    List.Forall₂ (fun a b => b ∈ bs ∧ R a b) as bs :=
  (forall₂_mem_left h.flip).flip

theorem exists_of_forall₂_right {α β : Type} {R : α → β → Prop} {as : List α} {bs : List β}
    (h : List.Forall₂ R as bs) {b : β} (hb : b ∈ bs) : ∃ a ∈ as, R a b :=
  exists_of_forall₂_left (R := flip R) h.flip hb

theorem exists_head?_of_forall₂ {α β : Type} {R : α → β → Prop} {as : List α} {bs : List β}
    (h : List.Forall₂ R as bs) {a : α} (ha : a ∈ as.head?) : ∃ b ∈ bs.head?, R a b := by
  cases h with
  | nil => cases ha
  | cons hr _ => cases ha; exact ⟨_, rfl, hr⟩

theorem exists_getLast?_of_forall₂ {α β : Type} {R : α → β → Prop} {as : List α} {bs : List β}
    (h : List.Forall₂ R as bs) {a : α} (ha : a ∈ as.getLast?) : ∃ b ∈ bs.getLast?, R a b := by
  rw [← List.head?_reverse] at ha ⊢
  exact exists_head?_of_forall₂ (List.forall₂_reverse_iff.mpr h) ha

theorem map_eq_map_iff_forall₂ {α β γ : Type} {f : α → γ} {g : β → γ} {as : List α} {bs : List β} :
    as.map f = bs.map g ↔ List.Forall₂ (fun a b => f a = g b) as bs := by
  rw [← List.forall₂_eq_eq_eq, List.forall₂_map_left_iff, List.forall₂_map_right_iff]

/-- The first lexemes have the tokens, one each, and the next one has the failure. -/
theorem tokens_split (names : NameTable) (xs : List Lexeme) :
    ∃ ys zs, xs = ys ++ zs ∧
      List.Forall₂ (fun t y => t.span = y.span ∧ ∃ n n', Lexeme.token n y = .ok (t.token, n') ∧
        n'.Grows (tokens names xs).2.2) (tokens names xs).1 ys ∧
      match (tokens names xs).2.1 with
      | none => zs = []
      | some f => ∃ z rest n, zs = z :: rest ∧ Lexeme.token n z = .error f := by
  induction xs generalizing names with
  | nil => exact ⟨[], [], rfl, .nil, rfl⟩
  | cons x xs ih =>
    cases hx : x.token names with
    | error f => rw [tokens_cons_error hx]; exact ⟨[], x :: xs, rfl, .nil, x, xs, names, rfl, hx⟩
    | ok r =>
      obtain ⟨ys, zs, hxs, hys, hzs⟩ := ih r.2
      rw [tokens_cons_ok hx]
      refine ⟨x :: ys, zs, by rw [hxs]; rfl, .cons ⟨rfl, names, r.2, hx, grows_tokens r.2 xs⟩ hys, hzs⟩

/-- Lexemes that all had tokens have one each. -/
theorem forall₂_of_tokens {xs : List Lexeme} (h : (tokens names xs).2.1 = none) :
    List.Forall₂ (fun t x => t.span = x.span ∧ ∃ n n', Lexeme.token n x = .ok (t.token, n') ∧
      n'.Grows (tokens names xs).2.2) (tokens names xs).1 xs := by
  obtain ⟨ys, zs, hxs, hys, hzs⟩ := tokens_split names xs
  rw [h] at hzs
  obtain rfl : xs = ys := by rw [hxs, hzs, List.append_nil]
  exact hys

end LineLisp
