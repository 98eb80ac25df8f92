/-
  LineLisp.Proofs.Lexeme.Joining — the lexemes of a text and of its parts.

  `Scan pos cs xs` is how lexemes and separators make up a text; every text is made up in
  one way, of its lexemes (`scan_iff`). A text falls apart where two of its lexemes meet:
  what stands before has the lexemes before, and what stands after, scanned from its own
  place, has the lexemes after (`Scan.exists_before`, `Scan.exists_after`). The other way
  round, a text that goes on keeps its lexemes, if the last one does not go on too
  (`Scan.append_of_ended`); so does one that goes on with what ends a run
  (`Scan.append`), and then those up to a string that is still open stay in any case
  (`Scan.append_of_closed`).
-/

import LineLisp.Proofs.Lexeme.Cutting

namespace LineLisp

/-- Whether a lexeme goes on over the next character, if that is neither a separator nor a
    bracket nor a quote. -/
def Shape.runsOn : Shape → Bool
  | keyword | word => true
  | _ => false

namespace Lexeme

/-! ## More text after a lexeme, or less -/

theorem Ends.left {rest rest' : List Char} (h : Ends (rest ++ rest')) : Ends rest := by
  cases rest with
  | nil => exact ends_nil
  | cons c rest => exact h

theorem Ends.append {rest rest' : List Char} (h : Ends rest) (h' : rest = [] → Ends rest') : Ends (rest ++ rest') := by
  cases rest with
  | nil => exact h' rfl
  | cons c rest => exact h

theorem Cut.left {shape : Shape} {text rest rest' : List Char} (h : Cut shape text (rest ++ rest')) :
    Cut shape text rest := by
  generalize hr : rest ++ rest' = all at h
  cases h with
  | opener b => exact .opener b rest
  | closer b => exact .closer b rest
  | string _ hb => exact .string rest hb
  | openString hn =>
    obtain ⟨rfl, -⟩ := List.append_eq_nil_iff.mp hr
    exact .openString hn
  | keyword hrun he =>
    subst hr
    exact .keyword hrun he.left
  | word hk hrun he =>
    subst hr
    exact .word hk hrun he.left

theorem Cut.append {shape : Shape} {text rest rest' : List Char} (h : Cut shape text rest)
    (hs : shape ≠ .openString) (he : shape.runsOn = true → rest = [] → Ends rest') : Cut shape text (rest ++ rest') := by
  cases h with
  | opener b => exact .opener b _
  | closer b => exact .closer b _
  | string _ hb => exact .string _ hb
  | openString _ => exact absurd rfl hs
  | keyword hrun hr => exact .keyword hrun (hr.append (he rfl))
  | word hk hrun hr => exact .word hk hrun (hr.append (he rfl))

/-! ## How a text is made up -/

/-- The text that begins at a position is made up of these lexemes, and of separators. -/
inductive Scan : Int → List Char → List Lexeme → Prop
  | nil (pos : Int) : Scan pos [] []
  | separator {pos : Int} {c : Char} {rest : List Char} {xs : List Lexeme} : isSeparator c = true →
      Scan (pos + 1) rest xs → Scan pos (c :: rest) xs
  | lexeme {pos : Int} {shape : Shape} {text rest : List Char} {xs : List Lexeme} : Cut shape text rest →
      Scan (pos + text.length) rest xs → Scan pos (text ++ rest) (⟨shape, text, pos⟩ :: xs)

theorem scan_ofChars (pos : Int) (cs : List Char) : Scan pos cs (ofChars pos cs) := by
  fun_induction ofChars pos cs with
  | case1 pos => exact .nil pos
  | case2 pos c rest hs ih => exact .separator hs ih
  | case3 pos c rest hs shape n he ih =>
    have hcut : Cut (extent c rest).1 (c :: rest.take (extent c rest).2) (rest.drop (extent c rest).2) :=
      cut_extent (Bool.eq_false_iff.mpr hs) rest
    have hn := extent_le c rest
    rw [he] at hcut hn
    have hlen : pos + 1 + (n : Int) = pos + (c :: rest.take n).length := by
      rw [List.length_cons, List.length_take_of_le hn]
      omega
    have hsplit : c :: rest = (c :: rest.take n) ++ rest.drop n := by simp
    rw [hlen] at ih ⊢
    rw [hsplit]
    exact .lexeme hcut ih

theorem scan_iff {pos : Int} {cs : List Char} {xs : List Lexeme} : Scan pos cs xs ↔ ofChars pos cs = xs := by
  constructor
  · intro h
    induction h with
    | nil pos => rw [ofChars]
    | separator hs _ ih => rw [ofChars_separator hs, ih]
    | lexeme hc _ ih => rw [ofChars_append_of_cut hc, ih]
  · intro h
    exact h ▸ scan_ofChars pos cs

/-! ## Taking a text apart -/

/-- A text scanned from one of its lexemes on has that lexeme and those after it. -/
theorem Scan.exists_after {pos : Int} {cs : List Char} {xs ys : List Lexeme} {y : Lexeme}
    (h : Scan pos cs (xs ++ y :: ys)) :
    ∃ before after, cs = before ++ after ∧ y.pos = pos + before.length ∧ Scan y.pos after (y :: ys) := by
  generalize hz : xs ++ y :: ys = zs at h
  induction h generalizing xs with
  | nil pos => cases xs <;> cases hz
  | @separator pos c rest zs hs _ ih =>
    obtain ⟨before, after, rfl, hp, hl⟩ := ih hz
    refine ⟨c :: before, after, rfl, ?_, hl⟩
    rw [hp, List.length_cons]
    omega
  | @lexeme pos shape text rest zs hc hrest ih =>
    cases xs with
    | nil =>
      obtain ⟨rfl, rfl⟩ := List.cons.inj hz
      exact ⟨[], text ++ rest, rfl, by simp, .lexeme hc hrest⟩
    | cons x xs =>
      obtain ⟨before, after, rfl, hp, hl⟩ := ih (List.cons.inj hz).2
      refine ⟨text ++ before, after, (List.append_assoc ..).symm, ?_, hl⟩
      rw [hp, List.length_append]
      omega

/-- A text cut off after one of its lexemes has that lexeme and those before it. -/
theorem Scan.exists_before {pos : Int} {cs : List Char} {xs ys : List Lexeme} {x : Lexeme}
    (h : Scan pos cs (xs ++ x :: ys)) :
    ∃ before after, cs = before ++ after ∧ x.span.hi = pos + before.length ∧ Scan pos before (xs ++ [x]) := by
  generalize hz : xs ++ x :: ys = zs at h
  induction h generalizing xs with
  | nil pos => cases xs <;> cases hz
  | @separator pos c rest zs hs _ ih =>
    obtain ⟨before, after, rfl, hp, hl⟩ := ih hz
    refine ⟨c :: before, after, rfl, ?_, .separator hs hl⟩
    rw [hp, List.length_cons]
    omega
  | @lexeme pos shape text rest zs hc _ ih =>
    cases xs with
    | nil =>
      obtain ⟨rfl, -⟩ := List.cons.inj hz
      have hc : Cut shape text ([] ++ rest) := hc
      have halone : Scan pos (text ++ []) [⟨shape, text, pos⟩] := .lexeme hc.left (.nil _)
      rw [List.append_nil] at halone
      exact ⟨text, rest, rfl, rfl, halone⟩
    | cons x' xs =>
      obtain ⟨rfl, htail⟩ := List.cons.inj hz
      obtain ⟨before, after, rfl, hp, hl⟩ := ih htail
      refine ⟨text ++ before, after, (List.append_assoc ..).symm, ?_, .lexeme hc.left hl⟩
      rw [hp, List.length_append]
      omega

/-! ## Going on with a text -/

/-- Lexemes up to a string that is still open stay what they are when the text goes on. -/
theorem Scan.append_of_closed {pos : Int} {cs rest : List Char} {xs ys : List Lexeme} (h : Scan pos cs (xs ++ ys))
    (hclosed : ∀ x ∈ xs, x.shape ≠ .openString) (he : Ends rest) : ∃ zs, Scan pos (cs ++ rest) (xs ++ zs) := by
  generalize hz : xs ++ ys = zs at h
  induction h generalizing xs with
  | nil pos =>
    obtain ⟨rfl, -⟩ := List.append_eq_nil_iff.mp hz
    exact ⟨_, scan_ofChars pos rest⟩
  | separator hs _ ih =>
    obtain ⟨zs, hzs⟩ := ih hclosed hz
    exact ⟨zs, .separator hs hzs⟩
  | @lexeme pos shape text rest' zs hc _ ih =>
    cases xs with
    | nil => exact ⟨_, scan_ofChars pos _⟩
    | cons x xs =>
      obtain ⟨rfl, htail⟩ := List.cons.inj hz
      obtain ⟨hshape, hrest⟩ := List.forall_mem_cons.mp hclosed
      obtain ⟨zs, hzs⟩ := ih hrest htail
      refine ⟨zs, ?_⟩
      rw [List.append_assoc]
      exact .lexeme (hc.append hshape fun _ _ => he) hzs

/-- A text keeps its lexemes when it goes on, unless the last one reaches its end and goes
    on too. -/
theorem Scan.append_of_ended {pos : Int} {cs rest : List Char} {xs ys : List Lexeme} (h : Scan pos cs xs)
    (hclosed : ∀ x ∈ xs, x.shape ≠ .openString)
    (hended : ∀ x ∈ xs, x.shape.runsOn = true → x.span.hi = pos + cs.length → Ends rest)
    (hrest : Scan (pos + cs.length) rest ys) : Scan pos (cs ++ rest) (xs ++ ys) := by
  induction h with
  | nil pos => simpa using hrest
  | @separator pos c cs xs hs _ ih =>
    rw [List.length_cons, Int.natCast_succ, Int.add_comm (cs.length : Int), ← Int.add_assoc] at hended hrest
    exact .separator hs (ih hclosed hended hrest)
  | @lexeme pos shape text cs xs hc _ ih =>
    obtain ⟨hshape, hclosed⟩ := List.forall_mem_cons.mp hclosed
    obtain ⟨hend, hended⟩ := List.forall_mem_cons.mp hended
    rw [List.length_append, Int.natCast_add, ← Int.add_assoc] at hended hrest
    rw [List.append_assoc]
    refine .lexeme (hc.append hshape fun hrun hnil => hend hrun ?_) (ih hclosed hended hrest)
    rw [hnil, List.append_nil]
    rfl

theorem Scan.append {pos : Int} {cs rest : List Char} {xs ys : List Lexeme} (h : Scan pos cs xs)
    (hclosed : ∀ x ∈ xs, x.shape ≠ .openString) (he : Ends rest) (hrest : Scan (pos + cs.length) rest ys) :
    Scan pos (cs ++ rest) (xs ++ ys) :=
  h.append_of_ended hclosed (fun _ _ _ _ => he) hrest

/-! ## Separators -/

/-- A text without lexemes has separators only. -/
theorem Scan.separators_of_nil {pos : Int} {cs : List Char} (h : Scan pos cs []) : ∀ c ∈ cs, isSeparator c = true := by
  generalize hx : [] = xs at h
  induction h with
  | nil pos => exact fun c hc => nomatch hc
  | separator hs _ ih => exact List.forall_mem_cons.mpr ⟨hs, ih hx⟩
  | lexeme _ _ _ => cases hx

end Lexeme

end LineLisp
