/-
  LineLisp.Proofs.NameTable.Numbering — interning numbers texts in the order of their
  first appearance, and the numbering can be read in both directions.

  What was interned before is interned as it was, and nothing else has the number
  (`intern_of_mem_internAll`); a new text has the next number. So the numbers given out
  to a sequence of texts are, each once, all below the size of the table
  (`eraseDups_internEach`), and the texts of the table are the sequence, each text once.

  A table need not be searched for a text. Beside it runs one that is kept twice, the
  texts by their numbers and the numbers by their texts, with one entry more in each for a
  new text. Both directions stay inverse to each other and to the table
  (`TwoWayTable.Keeps.intern`), so it gives out the same numbers.
-/

import Mathlib.Data.List.Induction
import LineLisp.FrameStack
import LineLisp.Proofs.NameTable.Growth

namespace LineLisp

/-- The numbers of texts that are interned one after another, and the table after them. -/
def internEach {σ : Type} (intern : σ → Glyphs → Name × σ) (t : σ) : List Glyphs → List Name × σ
  | [] => ([], t)
  | s :: ss =>
    let (n, t) := intern t s
    let (ns, t) := internEach intern t ss
    (n :: ns, t)

theorem internEach_concat {σ : Type} (intern : σ → Glyphs → Name × σ) (t : σ) (ss : List Glyphs) (s : Glyphs) :
    internEach intern t (ss ++ [s])
      = ((internEach intern t ss).1 ++ [(intern (internEach intern t ss).2 s).1], (intern (internEach intern t ss).2 s).2) := by
  induction ss generalizing t with
  | nil => rfl
  | cons u ss ih =>
    have hrest := ih (intern t u).2
    rw [List.cons_append, internEach, internEach]
    simp only [hrest, List.cons_append]

namespace NameTable

variable {t : NameTable} {ss : List Glyphs} {s : Glyphs} {n : Name}

/-! ## Texts and numbers -/

theorem exists_text?_iff : (∃ s, t.text? n = some s) ↔ n < t.size := by
  rw [← Option.isSome_iff_exists, text?, size]
  simp

theorem mem_iff_exists_text? : s ∈ t ↔ ∃ n, t.text? n = some s := List.mem_iff_getElem?

theorem resolve?_ofNat (t : NameTable) (n : Name) : t.resolve? n = t.text? n := by
  rw [resolve?, if_neg (by omega), Int.toNat_natCast]

theorem resolve?_eq_none_iff {i : Int} : t.resolve? i = none ↔ i < 0 ∨ (t.size : Int) ≤ i := by
  unfold resolve?
  by_cases h : i < 0
  · rw [if_pos h]
    exact iff_of_true rfl (Or.inl h)
  · rw [if_neg h, text?, List.getElem?_eq_none_iff, size]
    omega

theorem resolve?_of_grows {u : NameTable} (h : t.Grows u) {i : Int} (hi : t.resolve? i = some s) :
    u.resolve? i = some s := by
  unfold resolve? at hi ⊢
  split at hi
  · cases hi
  · rw [if_neg ‹_›]
    exact text?_of_grows h hi

/-! ## The numbers of a sequence -/

theorem intern_of_not_mem (h : s ∉ t) : (t.intern s).1 = t.size ∧ (t.intern s).2.texts = t.texts ++ [s] := by
  rw [mem_iff] at h
  rw [name_intern, texts_intern, if_neg h, if_neg h]
  exact ⟨rfl, rfl⟩

theorem size_intern_of_not_mem (h : s ∉ t) : (t.intern s).2.size = t.size + 1 := by
  rw [size, (intern_of_not_mem h).2, List.length_append]
  rfl

theorem snd_internEach (t : NameTable) (ss : List Glyphs) : (internEach intern t ss).2 = t.internAll ss := by
  induction ss generalizing t with
  | nil => rfl
  | cons s ss ih => exact ih (t.intern s).2

theorem texts_internAll_empty (ss : List Glyphs) : (empty.internAll ss).texts = ss.eraseDups := by
  have hall : ss.filter (· ∉ empty.texts) = ss := List.filter_eq_self.mpr fun s _ => by simp [empty]
  rw [texts_internAll, hall]
  rfl

theorem mem_internAll_empty : s ∈ empty.internAll ss ↔ s ∈ ss := by
  rw [mem_iff, texts_internAll_empty, List.mem_eraseDups]

/-- The number that a text has anywhere is its number from then on. -/
theorem intern_of_mem_internAll {before after : List Glyphs} (h : ss = before ++ s :: after) :
    ∃ n, (internEach intern empty ss).1[before.length]? = some n ∧
      (empty.internAll ss).intern s = (n, empty.internAll ss) := by
  subst h
  have hat : ∀ t : NameTable, (internEach intern t (before ++ s :: after)).1[before.length]?
      = some ((t.internAll before).intern s).1 := by
    induction before with
    | nil => exact fun t => rfl
    | cons u before ih => exact fun t => ih (t.intern u).2
  have hnow : ((empty.internAll before).intern s).2.text? ((empty.internAll before).intern s).1 = some s :=
    text?_intern _ s
  have hafter : empty.internAll (before ++ s :: after) = ((empty.internAll before).intern s).2.internAll after :=
    List.foldl_append
  have hgrows : ((empty.internAll before).intern s).2.Grows (empty.internAll (before ++ s :: after)) := by
    rw [hafter]
    exact grows_internAll _ after
  exact ⟨_, hat empty, intern_of_text? (text?_of_grows hgrows hnow)⟩

/-- The numbers given out, in the order in which they first were. -/
theorem eraseDups_internEach (ss : List Glyphs) :
    (internEach intern empty ss).1.eraseDups = List.range (empty.internAll ss).size := by
  induction ss using List.reverseRecOn with
  | nil => rfl
  | append_singleton ss s ih =>
    have hafter : empty.internAll (ss ++ [s]) = ((empty.internAll ss).intern s).2 := List.foldl_append
    rw [internEach_concat, snd_internEach, List.eraseDups_append, ih, hafter]
    by_cases hs : s ∈ empty.internAll ss
    · -- the number of a text that was there is below the size, and so among those before
      obtain ⟨n, hn⟩ := mem_iff_exists_text?.mp hs
      have hlt : n < (empty.internAll ss).size := exists_text?_iff.mp ⟨s, hn⟩
      have hold : n ∈ (internEach intern empty ss).1 := by
        rw [← List.mem_eraseDups, ih]
        exact List.mem_range.mpr hlt
      rw [intern_of_text? hn]
      simp [List.removeAll, hold]
    · have hnew : (empty.internAll ss).size ∉ (internEach intern empty ss).1 := by
        rw [← List.mem_eraseDups, ih]
        exact List.not_mem_range_self
      rw [(intern_of_not_mem hs).1, size_intern_of_not_mem hs, List.range_succ]
      simp [List.removeAll, hnew, List.eraseDups_cons]

end NameTable

/-! ## A table kept twice -/

structure TwoWayTable where
  texts : List Glyphs
  names : Frame Glyphs Name

namespace TwoWayTable

def empty : TwoWayTable := ⟨[], .empty⟩

def intern (d : TwoWayTable) (s : Glyphs) : Name × TwoWayTable :=
  match d.names.get? s with
  | some n => (n, d)
  | none => (d.texts.length, ⟨d.texts ++ [s], d.names.insert s d.texts.length⟩)

/-- Both directions are those of the table. -/
structure Keeps (d : TwoWayTable) (t : NameTable) : Prop where
  texts : d.texts = t.texts
  names : ∀ s n, d.names.get? s = some n ↔ t.text? n = some s

theorem keeps_empty : Keeps empty .empty :=
  ⟨rfl, fun _ _ => by simp [empty, Frame.get?_empty, NameTable.text?, NameTable.empty]⟩

variable {d : TwoWayTable} {t : NameTable}

theorem Keeps.intern (h : Keeps d t) (s : Glyphs) :
    (d.intern s).1 = (t.intern s).1 ∧ Keeps (d.intern s).2 (t.intern s).2 := by
  cases hs : d.names.get? s with
  | some n =>
    have hd : d.intern s = (n, d) := by rw [TwoWayTable.intern, hs]
    have ht : t.intern s = (n, t) := NameTable.intern_of_text? ((h.names s n).mp hs)
    rw [hd, ht]
    exact ⟨rfl, h⟩
  | none =>
    have hd : d.intern s = (d.texts.length, ⟨d.texts ++ [s], d.names.insert s d.texts.length⟩) := by
      rw [TwoWayTable.intern, hs]
    have hnew : s ∉ t := by
      intro hmem
      obtain ⟨n, hn⟩ := NameTable.mem_iff_exists_text?.mp hmem
      rw [(h.names s n).mpr hn] at hs
      cases hs
    obtain ⟨hname, htexts⟩ := NameTable.intern_of_not_mem hnew
    have hlen : d.texts.length = t.size := congrArg List.length h.texts
    rw [hd, hname, hlen]
    refine ⟨rfl, by rw [h.texts, htexts], fun u n => ?_⟩
    rw [Frame.get?_insert, NameTable.text?, htexts]
    by_cases hu : u = s
    · -- the new text stands behind all others and is none of them
      subst hu
      rw [if_pos rfl, Option.some.injEq]
      constructor
      · rintro rfl
        exact List.getElem?_concat_length
      · intro hn
        by_cases hlt : n < t.texts.length
        · rw [List.getElem?_append_left hlt] at hn
          exact absurd (List.mem_of_getElem? hn) hnew
        · have hbound : n < (t.texts ++ [u]).length := (List.getElem?_eq_some_iff.mp hn).1
          rw [List.length_append] at hbound
          exact Nat.le_antisymm (Nat.not_lt.mp hlt) (Nat.le_of_lt_succ hbound)
    · rw [if_neg hu, h.names u n, NameTable.text?]
      by_cases hlt : n < t.texts.length
      · rw [List.getElem?_append_left hlt]
      · rw [List.getElem?_append_right (Nat.not_lt.mp hlt), List.getElem?_eq_none (Nat.not_lt.mp hlt)]
        refine iff_of_false (fun hn => by cases hn) fun hn => hu ?_
        exact List.mem_singleton.mp (List.mem_of_getElem? hn)

theorem Keeps.internEach (h : Keeps d t) (ss : List Glyphs) :
    (LineLisp.internEach TwoWayTable.intern d ss).1 = (LineLisp.internEach NameTable.intern t ss).1 ∧
      Keeps (LineLisp.internEach TwoWayTable.intern d ss).2 (LineLisp.internEach NameTable.intern t ss).2 := by
  induction ss generalizing d t with
  | nil => exact ⟨rfl, h⟩
  | cons s ss ih =>
    obtain ⟨hname, hkeeps⟩ := h.intern s
    obtain ⟨hrest, hlast⟩ := ih hkeeps
    exact ⟨congrArg₂ List.cons hname hrest, hlast⟩

end TwoWayTable

/-! ## The numbering -/

namespace NameTable

/-- After any texts are interned from the start: the numbers given out, each where it first
    comes, count up from 0 to the size, for the texts in the order of their first places. A text
    has the number that it was given wherever it was interned, and interning it again
    changes nothing; a text is read back from its number and a number given out is had back
    from its text; no number reads back but those below the size; the table has the texts
    that were interned and no others; and no text that is interned later changes what a
    number reads back as. A table kept twice gives out the same numbers, and its two
    directions stay inverse. -/
theorem interning_numbers_texts (ss : List Glyphs) :
    let issued := (internEach intern empty ss).1
    let t := (internEach intern empty ss).2
    let d := internEach TwoWayTable.intern .empty ss
    (issued.eraseDups = List.range t.size ∧ t.texts = ss.eraseDups) ∧
      (∀ before s after, ss = before ++ s :: after →
        ∃ n, issued[before.length]? = some n ∧ t.intern s = (n, t)) ∧
      (∀ s, (t.intern s).2.resolve? (t.intern s).1 = some s) ∧
      (∀ n ∈ issued, ∃ s, t.resolve? n = some s ∧ t.intern s = (n, t)) ∧
      (∀ i : Int, t.resolve? i = none ↔ i < 0 ∨ (t.size : Int) ≤ i) ∧
      (∀ s, s ∈ t ↔ s ∈ ss) ∧
      (∀ later i s, t.resolve? i = some s → (t.internAll later).resolve? i = some s) ∧
      d.1 = issued ∧ d.2.texts = t.texts ∧ (∀ s n, d.2.names.get? s = some n ↔ d.2.texts[n]? = some s) ∧
      ∀ s, d.2.names.contains s = true ↔ s ∈ ss := by
  intro issued t d
  have ht : t = empty.internAll ss := snd_internEach empty ss
  have hnumbers : issued.eraseDups = List.range t.size := by rw [ht]; exact eraseDups_internEach ss
  obtain ⟨hsame, hkeeps⟩ := TwoWayTable.keeps_empty.internEach ss
  refine ⟨⟨hnumbers, by rw [ht, texts_internAll_empty]⟩, fun before s after hss => ?_, fun s => ?_, fun n hn => ?_,
    fun i => resolve?_eq_none_iff, fun s => by rw [ht, mem_internAll_empty],
    fun later i s => resolve?_of_grows (grows_internAll t later), hsame, hkeeps.texts, fun s n => ?_, fun s => ?_⟩
  · rw [ht]
    exact intern_of_mem_internAll hss
  · rw [resolve?_ofNat, text?_intern]
  · have hlt : n < t.size := by
      rw [← List.mem_range, ← hnumbers, List.mem_eraseDups]
      exact hn
    obtain ⟨s, hs⟩ := exists_text?_iff.mpr hlt
    exact ⟨s, by rw [resolve?_ofNat, hs], intern_of_text? hs⟩
  · rw [hkeeps.names s n, hkeeps.texts]
    rfl
  · have hmem : s ∈ t ↔ s ∈ ss := by rw [ht, mem_internAll_empty]
    rw [Frame.contains, Option.isSome_iff_exists, ← hmem, mem_iff_exists_text?]
    exact exists_congr fun n => hkeeps.names s n

end NameTable

end LineLisp
