/-
  LineLisp.Proofs.Spelled.Builtins — the built-ins do the same with names as with texts.

  What a built-in looks at in its arguments does not tell names from texts: whether a
  value is true, its printed form, how deep it is nested, whether two values are equal
  (names are equal exactly if their texts are), how deep comparing goes. So it needs
  the same stack and has the same value, spelled out (`run_spells`). Only the making of
  a keyword grows the table.
-/

import LineLisp.Proofs.Spelled.Spelling

namespace LineLisp

variable {t u : NameTable}

namespace Value

variable {v v' : Value} {w w' : Spelled.Value} {vs vs' : List Value} {ws ws' : List Spelled.Value}

theorem isTruthy_spells (h : v.spelled? t = some w) : v.isTruthy = w.isTruthy := by
  cases spelling h with
  | bool b => cases b <;> rfl
  | _ => rfl

/-! ## Printing and nesting -/

mutual

theorem display_spells {v : Value} {w : Spelled.Value} (h : v.spelled? t = some w) :
    v.display t = .ok w.display := by
  match v with
  | .keyword name =>
    obtain ⟨text, hn, rfl⟩ := Option.map_eq_some_iff.mp h
    rw [display, hn]
    rfl
  | .vector items =>
    obtain ⟨xs, hi, rfl⟩ := Option.map_eq_some_iff.mp h
    rw [display, displayEach_spells hi]
    rfl
  | .nil | .bool _ | .int _ | .str _ | .function (.builtin _) => cases h; rfl
  | .function (.host ..) | .foreign _ => cases h

theorem displayEach_spells {vs : List Value} {ws : List Spelled.Value} (h : spelledEach? t vs = some ws) :
    displayEach t vs = .ok (Spelled.Value.displayEach ws) := by
  match vs with
  | [] => cases h; rfl
  | v :: vs =>
    obtain ⟨w, xs, hw, hx, rfl⟩ := spelledEach?_cons_eq_some.mp h
    rw [displayEach, display_spells hw, displayEach_spells hx]
    rfl

end

mutual

theorem nesting_spells {v : Value} {w : Spelled.Value} (h : v.spelled? t = some w) :
    v.nesting = w.nesting := by
  match v with
  | .keyword name =>
    obtain ⟨text, -, rfl⟩ := Option.map_eq_some_iff.mp h
    rfl
  | .vector items =>
    obtain ⟨xs, hi, rfl⟩ := Option.map_eq_some_iff.mp h
    rw [nesting, nestingEach_spells hi]
    rfl
  | .nil | .bool _ | .int _ | .str _ | .function (.builtin _) => cases h; rfl
  | .function (.host ..) | .foreign _ => cases h

theorem nestingEach_spells {vs : List Value} {ws : List Spelled.Value} (h : spelledEach? t vs = some ws) :
    nestingEach vs = Spelled.Value.nestingEach ws := by
  match vs with
  | [] => cases h; rfl
  | v :: vs =>
    obtain ⟨w, xs, hw, hx, rfl⟩ := spelledEach?_cons_eq_some.mp h
    rw [nestingEach, nesting_spells hw, nestingEach_spells hx]
    rfl

end

theorem isEqual_keyword {n m : Name} {a b : Glyphs} (hn : t.text? n = some a) (hm : t.text? m = some b) :
    (keyword n).isEqual (keyword m) = (Spelled.Value.keyword a).isEqual (.keyword b) := by
  simp only [isEqual, Spelled.Value.isEqual]
  rw [Bool.eq_iff_iff, beq_iff_eq, beq_iff_eq]
  exact NameTable.eq_iff_of_text? hn hm

theorem isEqual_function (b b' : Builtin) :
    (function (.builtin b)).isEqual (function (.builtin b')) = (Spelled.Value.function b).isEqual (.function b') := by
  simp only [isEqual, Spelled.Value.isEqual]
  rw [Bool.eq_iff_iff, beq_iff_eq, beq_iff_eq, Function.builtin.injEq]

mutual

theorem isEqual_spells {v v' : Value} {w w' : Spelled.Value} (h : v.spelled? t = some w)
    (h' : v'.spelled? t = some w') : v.isEqual v' = w.isEqual w' := by
  cases v with
  | keyword n =>
    obtain ⟨a, hn, rfl⟩ := Option.map_eq_some_iff.mp h
    cases spelling h' with
    | keyword hm => exact isEqual_keyword hn hm
    | _ => rfl
  | vector items =>
    obtain ⟨xs, hx, rfl⟩ := Option.map_eq_some_iff.mp h
    cases spelling h' with
    | vector hx' => exact areEqual_spells hx hx'
    | _ => rfl
  | function f =>
    cases f <;> cases h
    cases spelling h' with
    | function b' => exact isEqual_function _ b'
    | _ => rfl
  | foreign thing => cases h
  | nil | bool _ | int _ | str _ =>
    cases h
    cases spelling h' <;> rfl

theorem areEqual_spells {vs vs' : List Value} {ws ws' : List Spelled.Value} (h : spelledEach? t vs = some ws)
    (h' : spelledEach? t vs' = some ws') : areEqual vs vs' = Spelled.Value.areEqual ws ws' := by
  match vs, vs' with
  | [], [] => cases h; cases h'; rfl
  | [], v' :: vs' =>
    cases h
    obtain ⟨w', xs', -, -, rfl⟩ := spelledEach?_cons_eq_some.mp h'
    rfl
  | v :: vs, [] =>
    cases h'
    obtain ⟨w, xs, -, -, rfl⟩ := spelledEach?_cons_eq_some.mp h
    rfl
  | v :: vs, v' :: vs' =>
    obtain ⟨w, xs, hw, hx, rfl⟩ := spelledEach?_cons_eq_some.mp h
    obtain ⟨w', xs', hw', hx', rfl⟩ := spelledEach?_cons_eq_some.mp h'
    rw [areEqual, isEqual_spells hw hw', areEqual_spells hx hx']
    rfl

end

mutual

theorem comparedLevels_spells {v v' : Value} {w w' : Spelled.Value} (h : v.spelled? t = some w)
    (h' : v'.spelled? t = some w') : v.comparedLevels v' = w.comparedLevels w' := by
  cases v with
  | vector items =>
    obtain ⟨xs, hx, rfl⟩ := Option.map_eq_some_iff.mp h
    cases spelling h' with
    | vector hx' =>
      rw [comparedLevels, comparedEach_spells hx hx', length_of_spelledEach? hx, length_of_spelledEach? hx']
      rfl
    | _ => rfl
  | foreign thing => cases h
  | _ =>
    cases spelling h
    cases spelling h' <;> rfl

theorem comparedEach_spells {vs vs' : List Value} {ws ws' : List Spelled.Value} (h : spelledEach? t vs = some ws)
    (h' : spelledEach? t vs' = some ws') : comparedEach vs vs' = Spelled.Value.comparedEach ws ws' := by
  match vs, vs' with
  | [], _ => cases h; rfl
  | v :: vs, [] =>
    cases h'
    obtain ⟨w, xs, -, -, rfl⟩ := spelledEach?_cons_eq_some.mp h
    rfl
  | v :: vs, v' :: vs' =>
    obtain ⟨w, xs, hw, hx, rfl⟩ := spelledEach?_cons_eq_some.mp h
    obtain ⟨w', xs', hw', hx', rfl⟩ := spelledEach?_cons_eq_some.mp h'
    rw [comparedEach, isEqual_spells hw hw', comparedLevels_spells hw hw', comparedEach_spells hx hx']
    rfl

end

end Value

namespace Builtin

open Value (spelling spelledEach? spelledEach?_cons_eq_some length_of_spelledEach?)

variable {args : List Value} {args' : List Spelled.Value}

/-! ## The stack they need -/

theorem levelsAgainst_spells {v : Value} {w : Spelled.Value} (h : v.spelled? t = some w)
    (ha : spelledEach? t args = some args') :
    equalsLevels.go v args = Spelled.levelsAgainst w args' := by
  induction args generalizing args' with
  | nil => cases ha; rfl
  | cons v' args ih =>
    obtain ⟨w', xs, hw', hx, rfl⟩ := spelledEach?_cons_eq_some.mp ha
    rw [equalsLevels.go, Value.isEqual_spells h hw', Value.comparedLevels_spells h hw', ih hx]
    rfl

theorem equalsLevels_spells (h : spelledEach? t args = some args') :
    equalsLevels args = Spelled.equalsLevels args' := by
  cases args with
  | nil => cases h; rfl
  | cons v vs =>
    obtain ⟨w, xs, hw, hx, rfl⟩ := spelledEach?_cons_eq_some.mp h
    exact levelsAgainst_spells hw hx

theorem stackNeed_spells (b : Builtin) (h : spelledEach? t args = some args') :
    b.stackNeed args = Spelled.stackNeed args' b := by
  cases b with
  | equal | notEqual => rw [stackNeed, equalsLevels_spells h]; rfl
  | str => exact Value.nestingEach_spells h
  | _ => rfl

/-! ## The values they have -/

theorem integers?_spells (h : spelledEach? t args = some args') : integers? args = Spelled.integers? args' := by
  induction args generalizing args' with
  | nil => cases h; rfl
  | cons v vs ih =>
    obtain ⟨w, xs, hw, hx, rfl⟩ := spelledEach?_cons_eq_some.mp h
    have hrest := ih hx
    simp only [integers?, Spelled.integers?] at hrest ⊢
    rw [List.mapM_cons, List.mapM_cons, hrest]
    cases spelling hw <;> rfl

theorem all_isEqual_spells {v : Value} {w : Spelled.Value} (h : v.spelled? t = some w)
    (ha : spelledEach? t args = some args') : args.all v.isEqual = args'.all w.isEqual := by
  induction args generalizing args' with
  | nil => cases ha; rfl
  | cons v' args ih =>
    obtain ⟨w', xs, hw', hx, rfl⟩ := spelledEach?_cons_eq_some.mp ha
    rw [List.all_cons, List.all_cons, Value.isEqual_spells h hw', ih hx]

theorem equals_spells (h : spelledEach? t args = some args') : equals args = Spelled.equals args' := by
  cases args with
  | nil => cases h; rfl
  | cons v vs =>
    obtain ⟨w, xs, hw, hx, rfl⟩ := spelledEach?_cons_eq_some.mp h
    rw [equals, Spelled.equals, all_isEqual_spells hw hx]

/-- The same content makes of two like constructors a value and its spelling. -/
theorem spelledOption_map {α : Type} {f : α → Value} {g : α → Spelled.Value}
    (h : ∀ a, (f a).spelled? t = some (g a)) (o : Option α) : SpelledOption t (o.map f) (o.map g) := by
  cases o with
  | none => exact Option.Rel.none
  | some a => exact Option.Rel.some (h a)

theorem onIntegers_spells (f : List Int → Option Int) (h : spelledEach? t args = some args') :
    SpelledOption t (onIntegers f args) (Spelled.onIntegers f args') := by
  rw [onIntegers, Spelled.onIntegers, integers?_spells h]
  exact spelledOption_map (fun _ => rfl) _

theorem onComparison_spells (rel : Int → Int → Bool) (h : spelledEach? t args = some args') :
    SpelledOption t (onComparison rel args) (Spelled.onComparison rel args') := by
  rw [onComparison, Spelled.onComparison, integers?_spells h]
  exact spelledOption_map (fun _ => rfl) _

/-- No argument, one, or more. -/
theorem arguments_cases (h : spelledEach? t args = some args') :
    (args = [] ∧ args' = []) ∨ (∃ v w, v.spelled? t = some w ∧ args = [v] ∧ args' = [w]) ∨
      ∃ v v' vs w w' ws, v.spelled? t = some w ∧ args = v :: v' :: vs ∧ args' = w :: w' :: ws := by
  rcases args with _ | ⟨v, _ | ⟨v', vs⟩⟩
  · cases h
    exact Or.inl ⟨rfl, rfl⟩
  · obtain ⟨w, xs, hw, hx, rfl⟩ := spelledEach?_cons_eq_some.mp h
    cases hx
    exact Or.inr (Or.inl ⟨v, w, hw, rfl, rfl⟩)
  · obtain ⟨w, xs, hw, hx, rfl⟩ := spelledEach?_cons_eq_some.mp h
    obtain ⟨w', ws, -, -, rfl⟩ := spelledEach?_cons_eq_some.mp hx
    exact Or.inr (Or.inr ⟨v, v', vs, w, w', ws, hw, rfl, rfl⟩)

theorem negated_spells (h : spelledEach? t args = some args') :
    SpelledOption t (negated args) (Spelled.negated args') := by
  obtain ⟨rfl, rfl⟩ | ⟨v, w, hw, rfl, rfl⟩ | ⟨v, v', vs, w, w', ws, -, rfl, rfl⟩ := arguments_cases h
  · exact Option.Rel.none
  · rw [negated, Value.isTruthy_spells hw]
    exact Option.Rel.some rfl
  · exact Option.Rel.none

theorem countOf_spells (h : spelledEach? t args = some args') :
    SpelledOption t (countOf args) (Spelled.countOf args') := by
  obtain ⟨rfl, rfl⟩ | ⟨v, w, hw, rfl, rfl⟩ | ⟨v, v', vs, w, w', ws, hw, rfl, rfl⟩ := arguments_cases h
  · exact Option.Rel.none
  · cases spelling hw with
    | str text => exact spelledOption_map (fun _ => rfl) _
    | vector hi =>
      rw [countOf, length_of_spelledEach? hi]
      exact spelledOption_map (fun _ => rfl) _
    | _ => exact Option.Rel.none
  · cases spelling hw <;> exact Option.Rel.none

/-- A reply is a value that the table after the call spells out, or there is none on
    either side; the table has grown. -/
def ReplySpells (t : NameTable) (r : Reply × NameTable) (o : Option Spelled.Value) : Prop :=
  t.Grows r.2 ∧ ∃ o', r.1 = .ofOption o' ∧ SpelledOption r.2 o' o

theorem replySpells_of_option {o : Option Value} {o' : Option Spelled.Value} (h : SpelledOption t o o') :
    ReplySpells t (.ofOption o, t) o' := ⟨t.grows_refl, o, rfl, h⟩

theorem keyword_spells (h : spelledEach? t args = some args') :
    ReplySpells t (keyword.run t args) (Spelled.keywordOf args') := by
  have none : ReplySpells t (.ofOption none, t) none := replySpells_of_option Option.Rel.none
  obtain ⟨rfl, rfl⟩ | ⟨v, w, hw, rfl, rfl⟩ | ⟨v, v', vs, w, w', ws, hw, rfl, rfl⟩ := arguments_cases h
  · exact none
  · cases spelling hw with
    | str text =>
      have hk : (Value.keyword (t.intern text).1).spelled? (t.intern text).2 = some (.keyword text) := by
        rw [Value.spelled?, NameTable.text?_intern]
        rfl
      exact ⟨t.grows_intern text, _, rfl, Option.Rel.some hk⟩
    | _ => exact none
  · cases spelling hw <;> exact none

theorem run_spells (b : Builtin) (h : spelledEach? t args = some args') :
    ReplySpells t (b.run t args) (Spelled.resultOf args' b) := by
  cases b with
  | add | sub | mul | div | mod => exact replySpells_of_option (onIntegers_spells _ h)
  | less | lessEqual | greater | greaterEqual => exact replySpells_of_option (onComparison_spells _ h)
  | equal | notEqual =>
    rw [run, Spelled.resultOf, equals_spells h]
    exact replySpells_of_option (spelledOption_map (fun _ => rfl) _)
  | not => exact replySpells_of_option (negated_spells h)
  | vector =>
    have hv : (Value.vector args).spelled? t = some (.vector args') := by
      rw [Value.spelled?, h]
      rfl
    exact ⟨t.grows_refl, some (.vector args), rfl, Option.Rel.some hv⟩
  | count => exact replySpells_of_option (countOf_spells h)
  | str =>
    rw [run, concatenated, Value.displayEach_spells h]
    exact ⟨t.grows_refl, some (.str (Spelled.Value.displayEach args').flatten), rfl, Option.Rel.some rfl⟩
  | keyword => exact keyword_spells h

end Builtin

end LineLisp
