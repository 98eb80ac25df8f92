/-
  LineLisp.NameTable — the texts that strings and names are, and the names in use.

  Printing a function leaves one mark in a text, which is that function's own and
  which no characters spell. So two texts with the marks of two functions differ,
  although the functions may be shown alike, and a text that was typed is never
  equal to one with a mark. Only when a text is shown is a mark spelt out, by the
  function's label; when characters are counted it has the width of the function's place.

  A table has each text once, numbered from 0 in the order of first use. A name is its
  number; the table only grows, so a number keeps its text, interning gives a number that
  reads back (`text?_intern`), and reading back then interning changes nothing
  (`intern_of_text?`).
-/

import LineLisp.Function

namespace LineLisp

/-! ## Texts -/

inductive Glyph
  | char (c : Char)
  | function (f : Function)
  deriving DecidableEq

def Glyph.shown : Glyph → List Char
  | char c => [c]
  | function f => "<function ".toList ++ f.label.toList ++ ['>']

/-- How many characters there are to a mark: a function is written with the place where it
    is kept, as `<function at 0x`, twelve hexadecimal digits and `>`. -/
def Glyph.width : Glyph → Nat
  | char _ => 1
  | function _ => 28

abbrev Glyphs := List Glyph

namespace Glyphs

def ofChars (cs : List Char) : Glyphs := cs.map .char

def ofString (s : String) : Glyphs := ofChars s.toList

/-- The text as it is shown. -/
def shown (t : Glyphs) : List Char := t.flatMap Glyph.shown

/-- How many characters the text has. -/
def width (t : Glyphs) : Nat := t.foldr (fun g n => g.width + n) 0

theorem shown_ofChars (cs : List Char) : (ofChars cs).shown = cs := by
  induction cs with
  | nil => rfl
  | cons c cs ih =>
    have h : (ofChars (c :: cs)).shown = c :: (ofChars cs).shown := rfl
    rw [h, ih]

end Glyphs

/-! ## Names -/

abbrev Name := Nat

structure NameTable where
  texts : List Glyphs
  nodup : texts.Nodup
  deriving DecidableEq

namespace NameTable

def empty : NameTable := ⟨[], List.nodup_nil⟩

def size (t : NameTable) : Nat := t.texts.length

instance : Membership Glyphs NameTable := ⟨fun t s => s ∈ t.texts⟩

instance (s : Glyphs) (t : NameTable) : Decidable (s ∈ t) :=
  inferInstanceAs (Decidable (s ∈ t.texts))

/-- The text of a name, if the table has given the name out. -/
def text? (t : NameTable) (n : Name) : Option Glyphs := t.texts[n]?

/-- The text of a number that need not be a name. -/
def resolve? (t : NameTable) (i : Int) : Option Glyphs :=
  if i < 0 then none else t.text? i.toNat

theorem mem_iff {s : Glyphs} {t : NameTable} : s ∈ t ↔ s ∈ t.texts := Iff.rfl

/-- The name of a text, and the table with the text in it. -/
def intern (t : NameTable) (s : Glyphs) : Name × NameTable :=
  if h : s ∈ t.texts then (t.texts.idxOf s, t)
  else (t.size, ⟨t.texts ++ [s], by
    rw [List.nodup_append]
    refine ⟨t.nodup, by simp, ?_⟩
    intro a ha b hb hab
    simp at hb; subst hb; subst hab; exact h ha⟩)

theorem intern_of_mem {t : NameTable} {s : Glyphs} (h : s ∈ t.texts) :
    t.intern s = (t.texts.idxOf s, t) := by
  simp [intern, h]

theorem texts_intern (t : NameTable) (s : Glyphs) :
    (t.intern s).2.texts = if s ∈ t.texts then t.texts else t.texts ++ [s] := by
  unfold intern; split <;> simp_all

theorem name_intern (t : NameTable) (s : Glyphs) :
    (t.intern s).1 = if s ∈ t.texts then t.texts.idxOf s else t.size := by
  unfold intern; split <;> simp_all

theorem text?_intern (t : NameTable) (s : Glyphs) : (t.intern s).2.text? (t.intern s).1 = some s := by
  unfold intern
  split
  · rename_i h
    simp [text?, List.getElem?_eq_getElem (List.idxOf_lt_length_iff.2 h)]
  · simp [text?, size]

theorem intern_of_text? {t : NameTable} {n : Name} {s : Glyphs} (h : t.text? n = some s) :
    t.intern s = (n, t) := by
  obtain ⟨hn, rfl⟩ := List.getElem?_eq_some_iff.1 h
  rw [intern_of_mem (List.getElem_mem hn), t.nodup.idxOf_getElem n hn]

end NameTable

end LineLisp
