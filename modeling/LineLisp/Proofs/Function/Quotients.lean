/-
  LineLisp.Proofs.Function.Quotients — dividing by several numbers, one after another, is
  dividing by their product once.

  Rounding toward zero composes (`tdiv_tdiv`). A quotient is never farther from zero than
  what is divided, so it is in the range, but for the least number divided by -1
  (`quotient_eq`). The least number comes out of a division only if it went in and was
  divided by 1 (`tdiv_eq_minWord_iff`): to meet -1 it must come through divisors 1, and
  such a run of divisors is refused (`Negating`) even if a later one would bring the
  quotient back.
-/

import Mathlib.Algebra.BigOperators.Group.List.Basic
import Mathlib.Algebra.Ring.Int.Defs
import LineLisp.Proofs.Function.Numbers

namespace LineLisp

theorem tdiv_tdiv (a b c : Int) : (a.tdiv b).tdiv c = a.tdiv (b * c) := by
  obtain ⟨m, rfl | rfl⟩ := a.eq_nat_or_neg <;> obtain ⟨n, rfl | rfl⟩ := b.eq_nat_or_neg <;>
    obtain ⟨k, rfl | rfl⟩ := c.eq_nat_or_neg <;>
    simp only [Int.neg_tdiv, Int.tdiv_neg, Int.neg_mul, Int.mul_neg, Int.neg_neg, ← Int.natCast_mul,
      ← Int.ofNat_tdiv, Nat.div_div_eq_div_mul]

namespace Builtin

variable {a b : Int} {bs : List Int}

/-! ## One division -/

theorem natAbs_tdiv_le_half (h : 2 ≤ b.natAbs) : (a.tdiv b).natAbs ≤ a.natAbs / 2 := by
  rw [Int.natAbs_tdiv]
  exact Nat.div_le_div_left h (by decide)

theorem eq_one_or_neg_one (hb : b ≠ 0) (h : ¬ 2 ≤ b.natAbs) : b = 1 ∨ b = -1 := by omega

theorem inWord_tdiv (ha : InWord a) (hb : b ≠ 0) (hne : ¬ (a = minWord ∧ b = -1)) : InWord (a.tdiv b) := by
  simp only [InWord, minWord, maxWord] at ha hne ⊢
  by_cases hhalf : 2 ≤ b.natAbs
  · have := natAbs_tdiv_le_half (a := a) hhalf
    omega
  · rcases eq_one_or_neg_one hb hhalf with rfl | rfl
    · rwa [Int.tdiv_one]
    · rw [Int.tdiv_neg, Int.tdiv_one]
      omega

theorem quotient_eq (ha : InWord a) (hb : b ≠ 0) (hne : ¬ (a = minWord ∧ b = -1)) :
    quotient a b = some (a.tdiv b) := by
  rw [quotient, if_neg hb, checkWord_eq_some_iff.mpr ⟨inWord_tdiv ha hb hne, rfl⟩]

theorem quotient_minWord_neg_one : quotient minWord (-1) = none := by decide

theorem tdiv_eq_minWord_iff (ha : InWord a) (hb : b ≠ 0) : a.tdiv b = minWord ↔ a = minWord ∧ b = 1 := by
  refine ⟨fun h => ?_, fun ⟨ha, hb⟩ => by rw [ha, hb, Int.tdiv_one]⟩
  simp only [InWord, minWord, maxWord] at ha h ⊢
  by_cases hhalf : 2 ≤ b.natAbs
  · have := natAbs_tdiv_le_half (a := a) hhalf
    omega
  · rcases eq_one_or_neg_one hb hhalf with rfl | rfl
    · exact ⟨by rwa [Int.tdiv_one] at h, rfl⟩
    · rw [Int.tdiv_neg, Int.tdiv_one] at h
      omega

/-! ## One division after another -/

/-- Some first divisors, one at least, are all 1 or -1, and their product is -1. -/
def Negating (bs : List Int) : Prop :=
  ∃ units, units <+: bs ∧ units ≠ [] ∧ (∀ b ∈ units, b = 1 ∨ b = -1) ∧ units.prod = -1

theorem not_negating_nil : ¬ Negating [] := by
  rintro ⟨units, hprefix, hne, -⟩
  exact hne (List.prefix_nil.mp hprefix)

theorem negating_neg_one (bs : List Int) : Negating (-1 :: bs) :=
  ⟨[-1], ⟨bs, rfl⟩, List.cons_ne_nil _ _, by simp, by simp⟩

theorem Negating.head (h : Negating (b :: bs)) : b = 1 ∨ b = -1 := by
  obtain ⟨units, hprefix, hne, hunits, -⟩ := h
  obtain rfl | ⟨rest, rfl, -⟩ := List.prefix_cons_iff.mp hprefix
  · exact absurd rfl hne
  · exact hunits b List.mem_cons_self

theorem negating_cons_one : Negating (1 :: bs) ↔ Negating bs := by
  constructor
  · rintro ⟨units, hprefix, hne, hunits, hprod⟩
    obtain rfl | ⟨rest, rfl, hrest⟩ := List.prefix_cons_iff.mp hprefix
    · exact absurd rfl hne
    · rw [List.prod_cons, Int.one_mul] at hprod
      have hrestne : rest ≠ [] := by
        rintro rfl
        exact absurd hprod (by decide)
      exact ⟨rest, hrest, hrestne, (List.forall_mem_cons.mp hunits).2, hprod⟩
  · rintro ⟨units, hprefix, -, hunits, hprod⟩
    refine ⟨1 :: units, List.prefix_cons_iff.mpr (.inr ⟨units, rfl, hprefix⟩), List.cons_ne_nil _ _,
      List.forall_mem_cons.mpr ⟨.inl rfl, hunits⟩, ?_⟩
    rw [List.prod_cons, Int.one_mul, hprod]

/-- A zero among the divisors, or the least number turned into its opposite on the way. -/
def Refused (a : Int) (bs : List Int) : Prop := 0 ∈ bs ∨ a = minWord ∧ Negating bs

theorem refused_cons (ha : InWord a) (hb : b ≠ 0) (hne : ¬ (a = minWord ∧ b = -1)) :
    Refused a (b :: bs) ↔ Refused (a.tdiv b) bs := by
  have hzero : 0 ∈ b :: bs ↔ 0 ∈ bs := by simp [Ne.symm hb]
  have hmin : a = minWord ∧ Negating (b :: bs) ↔ (a = minWord ∧ b = 1) ∧ Negating bs := by
    constructor
    · rintro ⟨rfl, hneg⟩
      obtain rfl | rfl := hneg.head
      · exact ⟨⟨rfl, rfl⟩, negating_cons_one.mp hneg⟩
      · exact absurd ⟨rfl, rfl⟩ hne
    · rintro ⟨⟨rfl, rfl⟩, hneg⟩
      exact ⟨rfl, negating_cons_one.mpr hneg⟩
  rw [Refused, Refused, hzero, hmin, tdiv_eq_minWord_iff ha hb]

theorem foldlM_quotient_of_refused (ha : InWord a) (h : Refused a bs) : bs.foldlM quotient a = none := by
  induction bs generalizing a with
  | nil =>
    rcases h with h | ⟨-, h⟩
    · cases h
    · exact absurd h not_negating_nil
  | cons b bs ih =>
    rw [List.foldlM_cons]
    by_cases hb : b = 0
    · rw [hb, quotient, if_pos rfl]
      rfl
    · by_cases hne : a = minWord ∧ b = -1
      · rw [hne.1, hne.2, quotient_minWord_neg_one]
        rfl
      · rw [quotient_eq ha hb hne]
        exact ih (inWord_tdiv ha hb hne) ((refused_cons ha hb hne).mp h)

theorem foldlM_quotient (ha : InWord a) (h : ¬ Refused a bs) : bs.foldlM quotient a = some (a.tdiv bs.prod) := by
  induction bs generalizing a with
  | nil => rw [List.prod_nil, Int.tdiv_one]; rfl
  | cons b bs ih =>
    have hb : b ≠ 0 := by
      rintro rfl
      exact h (.inl List.mem_cons_self)
    have hne : ¬ (a = minWord ∧ b = -1) := by
      rintro ⟨rfl, rfl⟩
      exact h (.inr ⟨rfl, negating_neg_one bs⟩)
    rw [refused_cons ha hb hne] at h
    rw [List.foldlM_cons, quotient_eq ha hb hne, List.prod_cons, ← tdiv_tdiv]
    exact ih (inWord_tdiv ha hb hne) h

/-- `/` on a number in the range and one divisor or more has the number divided by the
    product of the divisors, rounded toward zero, and it has no value exactly if there is
    a zero among the divisors, or the number is the least one and some first divisors are
    all 1 or -1 with the product -1. On other things than integers, or on fewer than two,
    it has no value. -/
theorem repeated_division_is_one (hosts : Hosts) (budget : Nat) (names : NameTable) :
    let call := fun args => ((Function.builtin div).call hosts budget names args).1
    (∀ (a : Int) (bs : List Int), InWord a → bs ≠ [] →
        (call ((a :: bs).map .int) = .noValue ↔ 0 ∈ bs ∨ a = minWord ∧ Negating bs) ∧
          (call ((a :: bs).map .int) ≠ .noValue → call ((a :: bs).map .int) = .value (.int (a.tdiv bs.prod)))) ∧
      ∀ args, (args.length < 2 ∨ ∃ v ∈ args, ∀ n, v ≠ .int n) → call args = .noValue := by
  intro call
  have hcall (args : List Value) : call args = .ofOption (onIntegers divNumbers args) :=
    congrArg Prod.fst (computes_div hosts budget names args)
  refine ⟨fun a bs ha hbs => ?_, fun args hargs => ?_⟩
  · have hlen : 2 ≤ (a :: bs).length := by
      have := List.length_pos_of_ne_nil hbs
      rw [List.length_cons]; omega
    have hfold : call ((a :: bs).map .int) = .ofOption ((bs.foldlM quotient a).map .int) := by
      rw [hcall, onIntegers_map, divNumbers_of_two_le hlen, combine]
    rw [hfold]
    by_cases h : Refused a bs
    · rw [foldlM_quotient_of_refused ha h]
      exact ⟨⟨fun _ => h, fun _ => rfl⟩, fun hne => absurd rfl hne⟩
    · rw [foldlM_quotient ha h]
      refine ⟨⟨fun hnone => ?_, fun h' => absurd h' h⟩, fun _ => rfl⟩
      cases hnone
  · rw [hcall, Reply.ofOption_eq_noValue]
    refine Option.eq_none_iff_forall_ne_some.mpr fun v hv => ?_
    obtain ⟨ns, n, rfl, hn, -⟩ := exists_numbers _ hv
    rcases hargs with hshort | ⟨w, hw, hwn⟩
    · rw [List.length_map] at hshort
      rw [divNumbers, if_pos hshort] at hn
      cases hn
    · obtain ⟨m, -, rfl⟩ := List.mem_map.mp hw
      exact hwn m rfl

/-- The least number by 1, -1 and 2 is refused at -1; by 2 first, its quotient by -6 comes out. -/
theorem repeated_division_of_least_number :
    let call := fun args => ((Function.builtin div).call Hosts.none 0 .empty args).1
    (InWord minWord ∧ Negating [1, -1, 2] ∧ ¬ Negating [2, -1, 3]) ∧
      call [.int minWord, .int 1, .int (-1), .int 2] = .noValue ∧
      call [.int minWord, .int 2, .int (-1), .int 3] = .value (.int 1537228672809129301) ∧
      call [.int 7, .bool true] = .noValue := by
  have hword : InWord minWord := by decide
  have hneg : Negating [1, -1, 2] := negating_cons_one.mpr (negating_neg_one [2])
  have hnot : ¬ Negating [2, -1, 3] := fun h => absurd h.head (by decide)
  obtain ⟨hnumbers, hother⟩ := repeated_division_is_one Hosts.none 0 .empty
  obtain ⟨hrefused, -⟩ := hnumbers minWord [1, -1, 2] hword (List.cons_ne_nil _ _)
  obtain ⟨hiff, hvalue⟩ := hnumbers minWord [2, -1, 3] hword (List.cons_ne_nil _ _)
  refine ⟨⟨hword, hneg, hnot⟩, hrefused.mpr (.inr ⟨rfl, hneg⟩), hvalue fun hnone => ?_,
    hother _ (.inr ⟨.bool true, List.mem_cons_of_mem _ List.mem_cons_self, fun _ h => nomatch h⟩)⟩
  rcases hiff.mp hnone with hzero | ⟨-, h⟩
  · exact absurd hzero (by decide)
  · exact hnot h

end Builtin

end LineLisp
