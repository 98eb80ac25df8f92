/-
  LineLisp.Proofs.NameTable.Growth — a table that has grown from another.

  A grown table has the texts of the other at the same numbers and more texts behind
  them, so what a name meant it still means (`text?_of_grows`). Interning grows a
  table (`grows_intern`). No two names of a table have the same text (`text?_inj`),
  so names can be compared in place of texts.
-/

import LineLisp.NameTable

namespace LineLisp.NameTable

/-- The texts of the second table begin with those of the first. -/
def Grows (t u : NameTable) : Prop := t.texts <+: u.texts

variable {t u v : NameTable} {n m : Name} {s : Glyphs}

theorem grows_refl (t : NameTable) : t.Grows t := List.prefix_refl t.texts

theorem Grows.trans (h : t.Grows u) (h' : u.Grows v) : t.Grows v := List.IsPrefix.trans h h'

theorem grows_intern (t : NameTable) (s : Glyphs) : t.Grows (t.intern s).2 := by
  rw [Grows, texts_intern]
  split
  · exact List.prefix_refl _
  · exact List.prefix_append _ _

theorem text?_of_grows (h : t.Grows u) (hn : t.text? n = some s) : u.text? n = some s := by
  obtain ⟨more, hu⟩ := h
  have hlt : n < t.texts.length := (List.getElem?_eq_some_iff.mp hn).1
  rw [text?, ← hu, List.getElem?_append_left hlt]
  exact hn

theorem text?_inj (hn : t.text? n = some s) (hm : t.text? m = some s) : n = m := by
  have h := intern_of_text? hn
  rw [intern_of_text? hm] at h
  exact (Prod.mk.inj h).1.symm

/-- Two names are the same exactly if their texts are. -/
theorem eq_iff_of_text? {s' : Glyphs} (hn : t.text? n = some s) (hm : t.text? m = some s') : n = m ↔ s = s' := by
  constructor
  · intro h
    subst h
    exact Option.some.inj (hn.symm.trans hm)
  · intro h
    subst h
    exact text?_inj hn hm

/-! ## Interning many texts -/

/-- The table after texts are interned one after another. -/
def internAll (t : NameTable) (ss : List Glyphs) : NameTable := ss.foldl (fun t s => (t.intern s).2) t

theorem internAll_cons (t : NameTable) (s : Glyphs) (ss : List Glyphs) :
    t.internAll (s :: ss) = (t.intern s).2.internAll ss := rfl

theorem grows_internAll (t : NameTable) (ss : List Glyphs) : t.Grows (t.internAll ss) := by
  induction ss generalizing t with
  | nil => exact t.grows_refl
  | cons s ss ih => exact (t.grows_intern s).trans (ih _)

/-- The texts that are new come behind the others, each once, in the order of their first
    places. -/
theorem texts_internAll (t : NameTable) (ss : List Glyphs) :
    (t.internAll ss).texts = t.texts ++ (ss.filter (· ∉ t.texts)).eraseDups := by
  induction ss generalizing t with
  | nil => exact (List.append_nil t.texts).symm
  | cons s ss ih =>
    rw [internAll_cons, ih, texts_intern]
    by_cases hs : s ∈ t.texts
    · rw [if_pos hs, List.filter_cons_of_neg (by simpa using hs)]
    · rw [if_neg hs, List.filter_cons_of_pos (by simpa using hs), List.eraseDups_cons, List.filter_filter,
        List.append_assoc, List.singleton_append]
      -- what is new after `s` is what was new, without `s`
      congr 4
      funext u
      simp [and_comm, Bool.beq_eq_decide_eq]

end LineLisp.NameTable
