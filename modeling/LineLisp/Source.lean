/-
  LineLisp.Source — one line of input, and half-open ranges of positions in it.

  A span knows that it does not end before it starts; `Span.of?` is the only way in for two
  arbitrary positions. `join` is the least span that holds two others (`join_contains_left`,
  `join_contains_right`). A line has the position of its first character, from which spans of
  it count; `slice` reads the characters of a span back (`slice_ofLength`: of a span that lies
  inside the line, those and no others).
-/

import LineLisp.Text

namespace LineLisp

/-! ## Spans -/

structure Span where
  lo : Int
  hi : Int
  lo_le_hi : lo ≤ hi
  deriving DecidableEq

namespace Span

def of? (lo hi : Int) : Option Span :=
  if h : lo ≤ hi then some ⟨lo, hi, h⟩ else none

theorem of?_eq_none_iff {lo hi : Int} : of? lo hi = none ↔ hi < lo := by
  unfold of?
  split
  · rename_i h; exact ⟨fun h' => (nomatch h'), fun h' => absurd h (Int.not_le.2 h')⟩
  · rename_i h; exact ⟨fun _ => Int.not_le.1 h, fun _ => rfl⟩

/-- The empty span at a position. -/
def point (pos : Int) : Span := ⟨pos, pos, Int.le_refl pos⟩

/-- The span of `n` positions from `pos` on. -/
def ofLength (pos : Int) (n : Nat) : Span := ⟨pos, pos + n, by omega⟩

def length (s : Span) : Nat := (s.hi - s.lo).toNat

def contains (s t : Span) : Bool := decide (s.lo ≤ t.lo ∧ t.hi ≤ s.hi)

/-- From the first start to the last end of the two. -/
def join (s t : Span) : Span :=
  ⟨min s.lo t.lo, max s.hi t.hi, by have := s.lo_le_hi; omega⟩

def text (s : Span) : String :=
  "Span(lo=" ++ toString s.lo ++ ", hi=" ++ toString s.hi ++ ")"

theorem join_contains_left (s t : Span) : (s.join t).contains s = true :=
  decide_eq_true ⟨Int.min_le_left .., Int.le_max_left ..⟩

theorem join_contains_right (s t : Span) : (s.join t).contains t = true :=
  decide_eq_true ⟨Int.min_le_right .., Int.le_max_right ..⟩

end Span

/-! ## Lines -/

structure Source where
  text : List Char
  start : Int
  deriving DecidableEq

namespace Source

def ofString (s : String) (start : Int) : Source := ⟨s.toList, start⟩

/-- The place of an index in a text: a negative index counts from the end, and one
    that lies before the text is the first place. -/
def place (text : List Char) (i : Int) : Nat :=
  if i < 0 then (i + text.length).toNat else i.toNat

/-- The characters of a span. What lies outside the line is left out, and a span
    that starts before the line counts from the line's end. -/
def slice (src : Source) (span : Span) : List Char :=
  let lo := place src.text (span.lo - src.start)
  let hi := place src.text (span.hi - src.start)
  (src.text.drop lo).take (hi - lo)

/-- The whole line. -/
def span (src : Source) : Span := Span.ofLength src.start src.text.length

/-- The place just after the line. -/
def eof (src : Source) : Span := Span.point (src.start + src.text.length)

/-- The source with its text in quotes. -/
def describe (src : Source) : List Char :=
  "Source(".toList ++ Text.quoted src.text ++ [')']

theorem place_of_nonneg {text : List Char} {i : Int} (h : 0 ≤ i) : place text i = i.toNat := by
  unfold place
  rw [if_neg (by omega)]

theorem slice_ofLength (before s after : List Char) (start : Int) :
    slice ⟨before ++ s ++ after, start⟩ (Span.ofLength (start + before.length) s.length) = s := by
  have lo : place (before ++ s ++ after) (start + before.length - start) = before.length := by
    rw [place_of_nonneg (by omega)]; omega
  have hi : place (before ++ s ++ after) (start + before.length + s.length - start)
      = before.length + s.length := by
    rw [place_of_nonneg (by omega)]; omega
  simp only [slice, Span.ofLength]
  rw [lo, hi, List.append_assoc, List.drop_left, Nat.add_sub_cancel_left, List.take_left]

end Source

end LineLisp
