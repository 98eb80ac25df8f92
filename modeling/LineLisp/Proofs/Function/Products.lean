/-
  LineLisp.Proofs.Function.Products — which sums and products there are.

  A sum is checked once, at its end (`addNumbers_eq`), so there is one exactly if the
  exact sum is in the range. A product is checked after every factor and is exact if
  there is one (`mulNumbers_exact`). As long as no factor is zero the products on the way
  never come nearer to zero, so if the last fits, all of them fit (`mulNumbers_eq`).
  Two things are out of reach of that argument: a zero factor, which brings back a
  product that has left the range, and the least number of the range, for its opposite,
  which is outside, may stand on the way to it.
-/

import Mathlib.Algebra.BigOperators.Group.List.Basic
import Mathlib.Algebra.BigOperators.Ring.List
import Mathlib.Algebra.Ring.Int.Defs
import LineLisp.Proofs.Function.Numbers

namespace LineLisp

/-! ## The range and absolute values -/

theorem inWord_of_natAbs_le {n : Int} (h : (n.natAbs : Int) ≤ maxWord) : InWord n := by
  simp only [InWord, minWord, maxWord] at h ⊢
  omega

/-- The least number aside, the range is even on both sides of zero. -/
theorem natAbs_le_of_inWord {n : Int} (h : InWord n) (hmin : n ≠ minWord) : (n.natAbs : Int) ≤ maxWord := by
  simp only [InWord, minWord, maxWord] at h hmin ⊢
  omega

namespace Builtin

variable {ns : List Int}

theorem addNumbers_eq (ns : List Int) : addNumbers ns = checkWord ns.sum := by
  rw [addNumbers, List.sum_eq_foldl]

/-! ## Products on the way -/

/-- Multiplying on from a product, with a check at every step. -/
theorem foldlM_mul_exact {a m : Int} (h : ns.foldlM (fun a b => checkWord (a * b)) a = some m) : m = a * ns.prod := by
  induction ns generalizing a with
  | nil => cases h; rw [List.prod_nil, Int.mul_one]
  | cons n ns ih =>
    rw [List.foldlM_cons] at h
    obtain ⟨b, hstep, hrest⟩ := Option.bind_eq_some_iff.mp h
    obtain ⟨-, rfl⟩ := checkWord_eq_some_iff.mp hstep
    rw [ih hrest, List.prod_cons, Int.mul_assoc]

/-- If what comes out is small enough, so is every product on the way. -/
theorem foldlM_mul_of_natAbs_le {a : Int} (ha : a ≠ 0) (hns : 0 ∉ ns) (h : ((a * ns.prod).natAbs : Int) ≤ maxWord) :
    ns.foldlM (fun a b => checkWord (a * b)) a = some (a * ns.prod) := by
  induction ns generalizing a with
  | nil => rw [List.prod_nil, Int.mul_one]; rfl
  | cons n ns ih =>
    obtain ⟨hn, hrest⟩ := not_or.mp fun hor => hns (List.mem_cons.mpr hor)
    have han : a * n ≠ 0 := Int.mul_ne_zero ha (Ne.symm hn)
    have hprod : ns.prod ≠ 0 := List.prod_ne_zero hrest
    rw [List.prod_cons, ← Int.mul_assoc] at h ⊢
    have hstep : (a * n).natAbs ≤ (a * n * ns.prod).natAbs :=
      Int.natAbs_le_of_dvd_ne_zero (Int.dvd_mul_right _ _) (Int.mul_ne_zero han hprod)
    have hword : InWord (a * n) := inWord_of_natAbs_le (by omega)
    rw [List.foldlM_cons, checkWord_eq_some_iff.mpr ⟨hword, rfl⟩]
    exact ih han hrest h

theorem mulNumbers_exact {m : Int} (h : mulNumbers ns = some m) : m = ns.prod ∧ InWord ns.prod := by
  have hm : m = ns.prod := by rw [foldlM_mul_exact h, Int.one_mul]
  exact ⟨hm, hm ▸ inWord_mulNumbers h⟩

theorem mulNumbers_eq (h0 : 0 ∉ ns) (hmin : ns.prod ≠ minWord) : mulNumbers ns = checkWord ns.prod := by
  by_cases hword : InWord ns.prod
  · have hle : ((1 * ns.prod).natAbs : Int) ≤ maxWord := by
      rw [Int.one_mul]; exact natAbs_le_of_inWord hword hmin
    have hmul := foldlM_mul_of_natAbs_le Int.one_ne_zero h0 hle
    rw [Int.one_mul] at hmul
    rw [checkWord_eq_some_iff.mpr ⟨hword, rfl⟩]
    exact hmul
  · rw [checkWord_eq_none_iff.mpr hword]
    exact Option.eq_none_iff_forall_ne_some.mpr fun m hm => hword (mulNumbers_exact hm).2

/-! ## Orders of the arguments -/

theorem exists_numbers_of_perm {args : List Value} (h : args.Perm (ns.map .int)) :
    ∃ ms : List Int, args = ms.map .int ∧ ms.Perm ns := by
  have hcomp : Relation.Comp (· = List.map Value.int ·) List.Perm args ns := by
    rw [List.eq_map_comp_perm]; exact h
  exact hcomp

/-- A function that does not mind the order of its numbers does not mind that of its arguments. -/
theorem onIntegers_perm {f : List Int → Option Int} (hf : ∀ ms ns : List Int, ms.Perm ns → f ms = f ns)
    {args args' : List Value} (h : args.Perm args') : onIntegers f args = onIntegers f args' := by
  by_cases hnumbers : ∃ ns : List Int, args' = ns.map .int
  · obtain ⟨ns, rfl⟩ := hnumbers
    obtain ⟨ms, rfl, hperm⟩ := exists_numbers_of_perm h
    rw [onIntegers_map, onIntegers_map, hf ms ns hperm]
  · have hargs (ns : List Int) : args ≠ ns.map .int := by
      rintro rfl
      obtain ⟨ms, hms, -⟩ := exists_numbers_of_perm h.symm
      exact hnumbers ⟨ms, hms⟩
    rw [onIntegers_eq_none f hargs, onIntegers_eq_none f fun ns hns => hnumbers ⟨ns, hns⟩]

theorem addNumbers_perm {ms : List Int} (h : ms.Perm ns) : addNumbers ms = addNumbers ns := by
  rw [addNumbers_eq, addNumbers_eq, h.sum_eq]

theorem mulNumbers_perm {ms : List Int} (h : ms.Perm ns) (h0 : 0 ∉ ns) (hmin : ns.prod ≠ minWord) :
    mulNumbers ms = mulNumbers ns := by
  have h0' : 0 ∉ ms := fun hmem => h0 (h.mem_iff.mp hmem)
  rw [mulNumbers_eq h0 hmin, mulNumbers_eq h0' (by rwa [h.prod_eq]), h.prod_eq]

/-- `+` has the exact sum if all arguments are integers and the sum is in the range, and
    else no value, in whatever order they come. `*` on integers has the exact product, in
    the range, or no value; if no factor is zero and the product is not the least number,
    it has the product exactly if that is in the range, again in whatever order. -/
theorem sums_and_products_are_exact (hosts : Hosts) (budget : Nat) (names : NameTable) :
    let call := fun b args => ((Function.builtin b).call hosts budget names args).1
    (∀ ns : List Int, call add (ns.map .int) = if InWord ns.sum then .value (.int ns.sum) else .noValue) ∧
      (∀ args, (∀ ns : List Int, args ≠ ns.map .int) → call add args = .noValue) ∧
      (∀ args args', args.Perm args' → call add args = call add args') ∧
      (∀ ns : List Int, (call mul (ns.map .int) = .value (.int ns.prod) ∧ InWord ns.prod) ∨
        call mul (ns.map .int) = .noValue) ∧
      ∀ ns : List Int, 0 ∉ ns → ns.prod ≠ minWord →
        (call mul (ns.map .int) = .value (.int ns.prod) ↔ InWord ns.prod) ∧
          ∀ ms : List Int, ms.Perm ns → call mul (ms.map .int) = call mul (ns.map .int) := by
  intro call
  have hadd (args : List Value) : call add args = .ofOption (onIntegers addNumbers args) :=
    congrArg Prod.fst (computes_add hosts budget names args)
  have hmul (ns : List Int) : call mul (ns.map .int) = .ofOption ((mulNumbers ns).map .int) := by
    rw [← onIntegers_map]
    exact congrArg Prod.fst (computes_mul hosts budget names _)
  refine ⟨fun ns => ?_, fun args hargs => ?_, fun args args' h => ?_, fun ns => ?_, fun ns h0 hmin => ⟨?_, fun ms h => ?_⟩⟩
  · rw [hadd, onIntegers_map, addNumbers_eq, checkWord]
    split <;> rfl
  · rw [hadd, onIntegers_eq_none _ hargs]
    rfl
  · rw [hadd, hadd, onIntegers_perm (fun _ _ => addNumbers_perm) h]
  · rw [hmul]
    cases hm : mulNumbers ns with
    | none => exact .inr rfl
    | some m =>
      obtain ⟨rfl, hword⟩ := mulNumbers_exact hm
      exact .inl ⟨rfl, hword⟩
  · rw [hmul, Reply.ofOption_eq_value, mulNumbers_eq h0 hmin]
    simp [checkWord_eq_some_iff]
  · rw [hmul, hmul, mulNumbers_perm h h0 hmin]

/-- A sum that leaves the range on its way, and a product next to the least number. -/
theorem sums_and_products_are_exact_near_bounds :
    let call := fun b args => ((Function.builtin b).call Hosts.none 0 .empty args).1
    (call add [.int maxWord, .int 1, .int (-2)] = .value (.int (maxWord - 1)) ∧
      call add [.int 1, .bool true] = .noValue ∧
      call add [.int maxWord, .int 1, .int (-2)] = call add [.int 1, .int (-2), .int maxWord]) ∧
    (0 ∉ [-3037000499, 3037000500] ∧ ([-3037000499, 3037000500] : List Int).prod ≠ minWord ∧
      [3037000500, -3037000499].Perm [-3037000499, 3037000500]) ∧
      call mul [.int (-3037000499), .int 3037000500] = .value (.int (-9223372033963249500)) ∧
      call mul [.int 3037000500, .int (-3037000499)] = call mul [.int (-3037000499), .int 3037000500] := by
  obtain ⟨hsum, hnone, horder, -, hmul⟩ := sums_and_products_are_exact Hosts.none 0 .empty
  obtain ⟨hvalue, hperm⟩ := hmul [-3037000499, 3037000500] (by decide) (by decide)
  have hswap : [3037000500, -3037000499].Perm ([-3037000499, 3037000500] : List Int) := .swap _ _ _
  have hbool (ns : List Int) : [.int 1, .bool true] ≠ ns.map Value.int := by
    intro h
    have hmem : Value.bool true ∈ ns.map Value.int := h ▸ List.mem_cons_of_mem _ List.mem_cons_self
    obtain ⟨n, -, hn⟩ := List.mem_map.mp hmem
    cases hn
  exact ⟨⟨hsum [maxWord, 1, -2], hnone _ hbool, horder _ _ (.trans (.swap _ _ _) (.cons _ (.swap _ _ _)))⟩,
    ⟨by decide, by decide, hswap⟩, hvalue.mpr (by decide), hperm _ hswap⟩

/-- On the way to the least number its opposite is outside the range. -/
example : mulNumbers [0x4000000000000000, 2, -1] = none ∧ mulNumbers [-1, 0x4000000000000000, 2] = some minWord := by
  decide

end Builtin

end LineLisp
