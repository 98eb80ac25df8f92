/-
  LineLisp.Proofs.Spelled.Spelling — what expressions, values and frames are when
  each name is replaced by its text.

  A table spells out what is made of its own names. It spells nothing of a host
  program: neither its functions nor things that are no values. What a table spells,
  every table grown from it spells alike (`spelled?_of_grows`).
-/

import Mathlib.Data.List.Forall2
import Mathlib.Data.Option.NAry
import LineLisp.Eval
import LineLisp.Proofs.NameTable.Growth
import LineLisp.Proofs.Spelled.Expr
import LineLisp.Proofs.Spelled.Value

namespace LineLisp

/-- Two outcomes that are the same failure, or two results that are related. -/
inductive SameOutcome {ε α β : Type} (R : α → β → Prop) : Except ε α → Except ε β → Prop
  | error (e : ε) : SameOutcome R (.error e) (.error e)
  | ok {a : α} {b : β} (h : R a b) : SameOutcome R (.ok a) (.ok b)

variable {t u : NameTable}

/-! ## Expressions -/

def Atom.spelled? (t : NameTable) : Atom → Option Spelled.Atom
  | .bool b => some (.bool b)
  | .integer n => some (.integer n)
  | .keyword name => (t.text? name).map .keyword
  | .nil => some .nil
  | .string => some .string
  | .symbol name => (t.text? name).map .symbol
  | .operator op => some (.operator op)
  | .unknown _ => none

theorem Atom.spelled?_of_grows (h : t.Grows u) {a : Atom} {b : Spelled.Atom} (ha : a.spelled? t = some b) :
    a.spelled? u = some b := by
  cases a with
  | keyword name | symbol name =>
    obtain ⟨text, hn, rfl⟩ := Option.map_eq_some_iff.mp ha
    rw [spelled?, NameTable.text?_of_grows h hn]
    rfl
  | unknown kind => cases ha
  | _ => exact ha

namespace Expr

mutual

def spelled? (t : NameTable) : Expr → Option Spelled.Expr
  | .atom span a => (a.spelled? t).map (.atom span)
  | .group span b items => (spelledEach? t items).map (.group span b)

def spelledEach? (t : NameTable) : List Expr → Option (List Spelled.Expr)
  | [] => some []
  | e :: es => (e.spelled? t).bind fun f => (spelledEach? t es).map (f :: ·)

end

variable {e : Expr} {es : List Expr} {f : Spelled.Expr} {fs : List Spelled.Expr}

theorem spelledEach?_cons_eq_some :
    spelledEach? t (e :: es) = some fs ↔
      ∃ f gs, e.spelled? t = some f ∧ spelledEach? t es = some gs ∧ fs = f :: gs := by
  have h : spelledEach? t (e :: es) = Option.map₂ List.cons (e.spelled? t) (spelledEach? t es) := rfl
  rw [h, Option.map₂_eq_some_iff]
  simp only [Option.mem_def, eq_comm]

theorem spelledEach?_eq_some_iff :
    spelledEach? t es = some fs ↔ List.Forall₂ (fun e f => e.spelled? t = some f) es fs := by
  induction es generalizing fs with
  | nil => simp [spelledEach?, List.forall₂_nil_left_iff, eq_comm]
  | cons e es ih =>
    rw [spelledEach?_cons_eq_some, List.forall₂_cons_left_iff]
    constructor
    · intro h
      obtain ⟨f, gs, hf, hg, hfs⟩ := h
      exact ⟨f, gs, hf, ih.mp hg, hfs⟩
    · intro h
      obtain ⟨f, gs, hf, hg, hfs⟩ := h
      exact ⟨f, gs, hf, ih.mpr hg, hfs⟩

theorem length_of_spelledEach? (h : spelledEach? t es = some fs) : es.length = fs.length :=
  (spelledEach?_eq_some_iff.mp h).length_eq

theorem span_of_spelled? (h : e.spelled? t = some f) : f.span = e.span := by
  cases e with
  | atom span a =>
    obtain ⟨b, -, rfl⟩ := Option.map_eq_some_iff.mp h
    rfl
  | group span b items =>
    obtain ⟨gs, -, rfl⟩ := Option.map_eq_some_iff.mp h
    rfl

mutual

theorem spelled?_of_grows (h : t.Grows u) {e : Expr} {f : Spelled.Expr} (he : e.spelled? t = some f) :
    e.spelled? u = some f := by
  match e with
  | .atom span a =>
    obtain ⟨b, ha, rfl⟩ := Option.map_eq_some_iff.mp he
    rw [spelled?, Atom.spelled?_of_grows h ha]
    rfl
  | .group span b items =>
    obtain ⟨gs, hi, rfl⟩ := Option.map_eq_some_iff.mp he
    rw [spelled?, spelledEach?_of_grows h hi]
    rfl

theorem spelledEach?_of_grows (h : t.Grows u) {es : List Expr} {fs : List Spelled.Expr}
    (he : spelledEach? t es = some fs) : spelledEach? u es = some fs := by
  match es with
  | [] => exact he
  | e :: es =>
    obtain ⟨f, gs, hf, hg, rfl⟩ := spelledEach?_cons_eq_some.mp he
    exact spelledEach?_cons_eq_some.mpr ⟨f, gs, spelled?_of_grows h hf, spelledEach?_of_grows h hg, rfl⟩

end

end Expr

/-! ## Values -/

namespace Value

mutual

def spelled? (t : NameTable) : Value → Option Spelled.Value
  | .nil => some .nil
  | .bool b => some (.bool b)
  | .int n => some (.int n)
  | .str text => some (.str text)
  | .keyword name => (t.text? name).map .keyword
  | .vector items => (spelledEach? t items).map .vector
  | .function (.builtin b) => some (.function b)
  | .function (.host _ _) | .foreign _ => none

def spelledEach? (t : NameTable) : List Value → Option (List Spelled.Value)
  | [] => some []
  | v :: vs => (v.spelled? t).bind fun w => (spelledEach? t vs).map (w :: ·)

end

/-- The values that are spelled out at all, kind by kind. -/
inductive Spelling (t : NameTable) : Value → Spelled.Value → Prop
  | nil : Spelling t .nil .nil
  | bool (b : Bool) : Spelling t (.bool b) (.bool b)
  | int (n : Int) : Spelling t (.int n) (.int n)
  | str (text : Glyphs) : Spelling t (.str text) (.str text)
  | keyword {name : Name} {text : Glyphs} (h : t.text? name = some text) :
    Spelling t (.keyword name) (.keyword text)
  | vector {items : List Value} {items' : List Spelled.Value} (h : spelledEach? t items = some items') :
    Spelling t (.vector items) (.vector items')
  | function (b : Builtin) : Spelling t (.function (.builtin b)) (.function b)

theorem spelling {v : Value} {w : Spelled.Value} (h : v.spelled? t = some w) : Spelling t v w := by
  cases v with
  | keyword name =>
    obtain ⟨text, hn, rfl⟩ := Option.map_eq_some_iff.mp h
    exact Spelling.keyword hn
  | vector items =>
    obtain ⟨items', hi, rfl⟩ := Option.map_eq_some_iff.mp h
    exact Spelling.vector hi
  | function f =>
    cases f with
    | builtin b => cases h; exact Spelling.function b
    | host serial label => cases h
  | nil => cases h; exact Spelling.nil
  | bool b => cases h; exact Spelling.bool b
  | int n => cases h; exact Spelling.int n
  | str text => cases h; exact Spelling.str text
  | foreign thing => cases h

theorem spelledEach?_cons_eq_some {v : Value} {vs : List Value} {ws : List Spelled.Value} :
    spelledEach? t (v :: vs) = some ws ↔
      ∃ w xs, v.spelled? t = some w ∧ spelledEach? t vs = some xs ∧ ws = w :: xs := by
  have h : spelledEach? t (v :: vs) = Option.map₂ List.cons (v.spelled? t) (spelledEach? t vs) := rfl
  rw [h, Option.map₂_eq_some_iff]
  simp only [Option.mem_def, eq_comm]

theorem length_of_spelledEach? {vs : List Value} {ws : List Spelled.Value} (h : spelledEach? t vs = some ws) :
    vs.length = ws.length := by
  induction vs generalizing ws with
  | nil => cases h; rfl
  | cons v vs ih =>
    obtain ⟨w, xs, -, hx, rfl⟩ := spelledEach?_cons_eq_some.mp h
    rw [List.length_cons, List.length_cons, ih hx]

mutual

theorem spelled?_of_grows (h : t.Grows u) {v : Value} {w : Spelled.Value} (hv : v.spelled? t = some w) :
    v.spelled? u = some w := by
  match v with
  | .keyword name =>
    obtain ⟨text, hn, rfl⟩ := Option.map_eq_some_iff.mp hv
    rw [spelled?, NameTable.text?_of_grows h hn]
    rfl
  | .vector items =>
    obtain ⟨xs, hi, rfl⟩ := Option.map_eq_some_iff.mp hv
    rw [spelled?, spelledEach?_of_grows h hi]
    rfl
  | .nil | .bool _ | .int _ | .str _ | .function (.builtin _) => exact hv
  | .function (.host ..) | .foreign _ => cases hv

theorem spelledEach?_of_grows (h : t.Grows u) {vs : List Value} {ws : List Spelled.Value}
    (hv : spelledEach? t vs = some ws) : spelledEach? u vs = some ws := by
  match vs with
  | [] => exact hv
  | v :: vs =>
    obtain ⟨w, xs, hw, hx, rfl⟩ := spelledEach?_cons_eq_some.mp hv
    exact spelledEach?_cons_eq_some.mpr ⟨w, xs, spelled?_of_grows h hw, spelledEach?_of_grows h hx, rfl⟩

end

end Value

/-! ## Frames -/

/-- The second frame binds the texts of the names that the first binds, in the same
    order, and the same values spelled out. -/
def Frame.Spells (t : NameTable) (f : Frame Name Value) (g : Frame Glyphs Spelled.Value) : Prop :=
  List.Forall₂ (fun p q => t.text? p.1 = some q.1 ∧ p.2.spelled? t = some q.2) f.entries g.entries

structure FrameStack.Spells (t : NameTable) (s : FrameStack Name Value) (r : FrameStack Glyphs Spelled.Value) :
    Prop where
  bottom : s.bottom.Spells t r.bottom
  upper : List.Forall₂ (Frame.Spells t) s.upper r.upper

/-- Two results of which one spells out the other, if both are there. -/
abbrev SpelledOption (t : NameTable) : Option Value → Option Spelled.Value → Prop :=
  Option.Rel fun v w => v.spelled? t = some w

namespace Frame

variable {f : Frame Name Value} {g : Frame Glyphs Spelled.Value} {name : Name} {text : Glyphs}

theorem spells_empty (t : NameTable) : (empty : Frame Name Value).Spells t empty := List.Forall₂.nil

theorem Spells.of_grows (h : t.Grows u) (hs : f.Spells t g) : f.Spells u g :=
  List.Forall₂.imp (fun _ _ hp => ⟨NameTable.text?_of_grows h hp.1, Value.spelled?_of_grows h hp.2⟩) hs

theorem Spells.get? (hs : f.Spells t g) (hn : t.text? name = some text) :
    SpelledOption t (f.get? name) (g.get? text) := by
  rcases f with ⟨es⟩
  rcases g with ⟨es'⟩
  replace hs : List.Forall₂ _ es es' := hs
  induction hs with
  | nil => exact Option.Rel.none
  | @cons p q es es' hp _ ih =>
    have hiff : name = p.1 ↔ text = q.1 := NameTable.eq_iff_of_text? hn hp.1
    rw [get?_cons, get?_cons]
    by_cases heq : name = p.1
    · rw [if_pos heq, if_pos (hiff.mp heq)]
      exact Option.Rel.some hp.2
    · rw [if_neg heq, if_neg (fun h => heq (hiff.mpr h))]
      exact ih

theorem Spells.insert {v : Value} {w : Spelled.Value} (hs : f.Spells t g) (hn : t.text? name = some text)
    (hv : v.spelled? t = some w) : (f.insert name v).Spells t (g.insert text w) := by
  rcases f with ⟨es⟩
  rcases g with ⟨es'⟩
  replace hs : List.Forall₂ _ es es' := hs
  simp only [Spells, Frame.insert]
  induction hs with
  | nil => exact List.Forall₂.cons ⟨hn, hv⟩ List.Forall₂.nil
  | @cons p q es es' hp hrest ih =>
    have hiff : p.1 = name ↔ q.1 = text := NameTable.eq_iff_of_text? hp.1 hn
    simp only [insertEntry]
    by_cases heq : p.1 = name
    · rw [if_pos heq, if_pos (hiff.mp heq)]
      exact List.Forall₂.cons ⟨hn, hv⟩ hrest
    · rw [if_neg heq, if_neg (fun h => heq (hiff.mpr h))]
      exact List.Forall₂.cons hp ih

end Frame

namespace FrameStack

variable {s : FrameStack Name Value} {r : FrameStack Glyphs Spelled.Value} {name : Name} {text : Glyphs}

theorem Spells.of_grows (h : t.Grows u) (hs : s.Spells t r) : s.Spells u r :=
  ⟨hs.bottom.of_grows h, hs.upper.imp fun _ _ hf => hf.of_grows h⟩

theorem Spells.frames (hs : s.Spells t r) : List.Forall₂ (Frame.Spells t) s.frames r.frames :=
  List.rel_append hs.upper (List.Forall₂.cons hs.bottom List.Forall₂.nil)

theorem Spells.get? (hs : s.Spells t r) (hn : t.text? name = some text) :
    SpelledOption t (s.get? name) (r.get? text) := by
  have hf := hs.frames
  simp only [FrameStack.get?]
  generalize s.frames = fs, r.frames = gs at hf ⊢
  induction hf with
  | nil => exact Option.Rel.none
  | @cons f g fs gs hf _ ih =>
    have hfound := hf.get? hn
    rw [List.findSome?_cons, List.findSome?_cons]
    generalize f.get? name = a, g.get? text = b at hfound ⊢
    cases hfound with
    | none => exact ih
    | some hv => exact Option.Rel.some hv

theorem Spells.insert {v : Value} {w : Spelled.Value} (hs : s.Spells t r) (hn : t.text? name = some text)
    (hv : v.spelled? t = some w) : (s.insert name v).Spells t (r.insert text w) := by
  rcases s with ⟨bottom, upper⟩
  rcases r with ⟨bottom', upper'⟩
  have hb : bottom.Spells t bottom' := hs.bottom
  have hu : List.Forall₂ (Frame.Spells t) upper upper' := hs.upper
  cases hu with
  | nil => exact ⟨hb.insert hn hv, List.Forall₂.nil⟩
  | cons hf hrest => exact ⟨hb, List.Forall₂.cons (hf.insert hn hv) hrest⟩

theorem Spells.push_empty (hs : s.Spells t r) : (s.push .empty).Spells t (r.push .empty) :=
  ⟨hs.bottom, List.Forall₂.cons (Frame.spells_empty t) hs.upper⟩

theorem Spells.pop (hs : s.Spells t r) : s.pop.Spells t r.pop := by
  refine ⟨hs.bottom, ?_⟩
  have hu := hs.upper
  show List.Forall₂ _ s.upper.tail r.upper.tail
  generalize s.upper = fs, r.upper = gs at hu ⊢
  cases hu with
  | nil => exact List.Forall₂.nil
  | cons _ hrest => exact hrest

end FrameStack

end LineLisp
