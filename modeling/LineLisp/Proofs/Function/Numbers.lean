/-
  LineLisp.Proofs.Function.Numbers — the built-ins `+`, `-`, `*` and `/` take their
  numbers one after another.

  Combining a list is combining its first part and then, with what came out in front,
  the rest (`combine_append`). So a call on the value of a call is the call on all
  arguments at once (`nested_call_eq_flat`). A sum is checked at its end only: that the
  first arguments have none says nothing of all of them. Differences, products and
  quotients are checked at every step, and once there is none there stays none.
-/

import LineLisp.Function.Call

namespace LineLisp

theorem Reply.ofOption_eq_value {o : Option Value} {v : Value} : Reply.ofOption o = .value v ↔ o = some v := by
  cases o <;> simp [Reply.ofOption]

theorem Reply.ofOption_eq_noValue {o : Option Value} : Reply.ofOption o = .noValue ↔ o = none := by
  cases o <;> simp [Reply.ofOption]

theorem inWord_of_checkWord {n m : Int} (h : checkWord n = some m) : InWord m := by
  obtain ⟨hn, rfl⟩ := checkWord_eq_some_iff.mp h
  exact hn

namespace Builtin

/-! ## Arguments as numbers -/

variable {args xs ys : List Value} {ns : List Int} (f : List Int → Option Int)

theorem integers?_append (xs ys : List Value) :
    integers? (xs ++ ys) = (integers? xs).bind fun ms => (integers? ys).map (ms ++ ·) := by
  simp only [integers?, List.mapM_append, Option.map_eq_bind]
  rfl

theorem integers?_map (ns : List Int) : integers? (ns.map .int) = some ns := by
  induction ns with
  | nil => rfl
  | cons n ns ih =>
    have hsplit : (n :: ns).map Value.int = [.int n] ++ ns.map .int := rfl
    rw [hsplit, integers?_append, ih]
    rfl

theorem integers?_eq_some_iff : integers? args = some ns ↔ args = ns.map .int := by
  refine ⟨fun h => ?_, fun h => h ▸ integers?_map ns⟩
  induction args generalizing ns with
  | nil => cases h; rfl
  | cons v vs ih =>
    rw [← List.singleton_append, integers?_append] at h
    obtain ⟨ms, hms, h⟩ := Option.bind_eq_some_iff.mp h
    obtain ⟨rest, hrest, rfl⟩ := Option.map_eq_some_iff.mp h
    cases v <;> cases hms
    rw [ih hrest]
    rfl

theorem onIntegers_map (ns : List Int) : onIntegers f (ns.map .int) = (f ns).map .int := by
  rw [onIntegers, integers?_map, Option.bind_some]

theorem onIntegers_eq_none (h : ∀ ns : List Int, args ≠ ns.map .int) : onIntegers f args = none := by
  have hnone : integers? args = none :=
    Option.eq_none_iff_forall_ne_some.mpr fun ns hns => h ns (integers?_eq_some_iff.mp hns)
  rw [onIntegers, hnone, Option.bind_none, Option.map_none]

/-- A function of numbers has a value only on numbers. -/
theorem exists_numbers {v : Value} (h : onIntegers f args = some v) :
    ∃ ns n, args = ns.map .int ∧ f ns = some n ∧ v = .int n := by
  obtain ⟨n, hn, rfl⟩ := Option.map_eq_some_iff.mp h
  obtain ⟨ns, hns, hf⟩ := Option.bind_eq_some_iff.mp hn
  exact ⟨ns, n, integers?_eq_some_iff.mp hns, hf, rfl⟩

/-- A call of this built-in is this function of numbers, whatever stack is left. -/
def Computes (b : Builtin) (f : List Int → Option Int) : Prop :=
  ∀ hosts budget names args,
    (Function.builtin b).call hosts budget names args = (.ofOption (onIntegers f args), names)

theorem computes_of_run {b : Builtin} (hneed : ∀ args, b.stackNeed args = 0)
    (hrun : ∀ names args, b.run names args = (.ofOption (onIntegers f args), names)) : Computes b f := by
  intro hosts budget names args
  rw [Function.call, hneed, if_neg (Nat.not_lt_zero budget), hrun]

theorem computes_add : Computes add addNumbers := computes_of_run _ (fun _ => rfl) fun _ _ => rfl

theorem computes_sub : Computes sub subNumbers := computes_of_run _ (fun _ => rfl) fun _ _ => rfl

theorem computes_mul : Computes mul mulNumbers := computes_of_run _ (fun _ => rfl) fun _ _ => rfl

theorem computes_div : Computes div divNumbers := computes_of_run _ (fun _ => rfl) fun _ _ => rfl

/-! ## The first numbers beforehand -/

theorem combine_append (op : Int → Int → Option Int) {ms : List Int} (h : ms ≠ []) (ns : List Int) :
    combine op (ms ++ ns) = (combine op ms).bind fun m => combine op (m :: ns) := by
  cases ms with
  | nil => exact absurd rfl h
  | cons m ms => exact List.foldlM_append

/-- With `k` numbers first and `l` more, the value of the first can stand for them. -/
def Nests (f : List Int → Option Int) (k l : Nat) : Prop :=
  ∀ ms ns m, k ≤ ms.length → l ≤ ns.length → f ms = some m → f (ms ++ ns) = f (m :: ns)

/-- With `k` numbers first and `l` more, there is no value if the first have none. -/
def StaysNone (f : List Int → Option Int) (k l : Nat) : Prop :=
  ∀ ms ns, k ≤ ms.length → l ≤ ns.length → f ms = none → f (ms ++ ns) = none

variable {f}

theorem nests_of_append {k l : Nat} (h : ∀ ms ns, k ≤ ms.length → l ≤ ns.length →
    f (ms ++ ns) = (f ms).bind fun m => f (m :: ns)) : Nests f k l ∧ StaysNone f k l := by
  refine ⟨fun ms ns m hms hns hm => ?_, fun ms ns hms hns hnone => ?_⟩
  · rw [h ms ns hms hns, hm, Option.bind_some]
  · rw [h ms ns hms hns, hnone, Option.bind_none]

/-- A function that combines its numbers if there are two or more. -/
theorem nests_of_combine (op : Int → Int → Option Int) (hf : ∀ ns, 2 ≤ ns.length → f ns = combine op ns) :
    Nests f 2 1 ∧ StaysNone f 2 1 := by
  refine nests_of_append fun ms ns hms hns => ?_
  have hall : 2 ≤ (ms ++ ns).length := by rw [List.length_append]; omega
  have hrest (m : Int) : 2 ≤ (m :: ns).length := by rw [List.length_cons]; omega
  have hne : ms ≠ [] := List.ne_nil_of_length_pos (by omega)
  simp only [hf _ hall, hf _ hms, hf _ (hrest _)]
  exact combine_append op hne ns

theorem nests_subNumbers : Nests subNumbers 2 1 ∧ StaysNone subNumbers 2 1 := by
  refine nests_of_combine (fun a b => checkWord (a - b)) fun ns h => ?_
  match ns, h with
  | _ :: _ :: _, _ => rfl

theorem divNumbers_of_two_le (h : 2 ≤ ns.length) : divNumbers ns = combine quotient ns := if_neg (Nat.not_lt.mpr h)

theorem nests_divNumbers : Nests divNumbers 2 1 ∧ StaysNone divNumbers 2 1 :=
  nests_of_combine quotient fun _ => divNumbers_of_two_le

theorem inWord_of_combine {op : Int → Int → Option Int} (hop : ∀ a b m, op a b = some m → InWord m) {n m : Int}
    (hn : InWord n) (h : combine op (n :: ns) = some m) : InWord m := by
  simp only [combine] at h
  induction ns generalizing n with
  | nil => cases h; exact hn
  | cons n' ns ih =>
    rw [List.foldlM_cons] at h
    obtain ⟨n'', hstep, hrest⟩ := Option.bind_eq_some_iff.mp h
    exact ih (hop n n' n'' hstep) hrest

theorem inWord_mulNumbers {m : Int} (h : mulNumbers ns = some m) : InWord m :=
  inWord_of_combine (fun _ _ _ => inWord_of_checkWord) (by decide : InWord 1) h

/-- The step from 1 gives the first number itself, if that is in the range. -/
theorem mulNumbers_cons {m : Int} (h : InWord m) (ns : List Int) :
    mulNumbers (m :: ns) = combine (fun a b => checkWord (a * b)) (m :: ns) := by
  have hm : checkWord (1 * m) = some m := checkWord_eq_some_iff.mpr ⟨by rwa [Int.one_mul], Int.one_mul m⟩
  rw [mulNumbers, combine, List.foldlM_cons, hm]
  rfl

theorem nests_mulNumbers : Nests mulNumbers 0 0 ∧ StaysNone mulNumbers 0 0 := by
  refine nests_of_append fun ms ns _ _ => ?_
  have hsplit : mulNumbers (ms ++ ns) = (mulNumbers ms).bind fun m => combine (fun a b => checkWord (a * b)) (m :: ns) :=
    combine_append _ (List.cons_ne_nil 1 ms) ns
  rw [hsplit]
  cases hms : mulNumbers ms with
  | none => rfl
  | some m => rw [Option.bind_some, Option.bind_some, mulNumbers_cons (inWord_mulNumbers hms)]

theorem nests_addNumbers : Nests addNumbers 0 0 := by
  intro ms ns m _ _ h
  obtain ⟨-, hsum⟩ := checkWord_eq_some_iff.mp h
  rw [addNumbers, addNumbers, List.foldl_append, hsum, List.foldl_cons, Int.zero_add]

/-! ## A call on the value of a call -/

section

variable {b : Builtin} {k l : Nat} (hb : Computes b f) (hosts : Hosts) (budget : Nat) (names : NameTable)
  (hx : k ≤ xs.length) (hy : l ≤ ys.length)
include hb hx hy

theorem call_nested (hf : Nests f k l) {v : Value} (h : ((Function.builtin b).call hosts budget names xs).1 = .value v) :
    ((Function.builtin b).call hosts budget names (v :: ys)).1
      = ((Function.builtin b).call hosts budget names (xs ++ ys)).1 := by
  rw [hb] at h ⊢
  rw [hb]
  obtain ⟨ms, m, rfl, hm, rfl⟩ := exists_numbers f (Reply.ofOption_eq_value.mp h)
  rw [onIntegers, onIntegers, integers?_append, integers?_map, ← List.singleton_append, integers?_append]
  cases hys : integers? ys with
  | none => rfl
  | some ns =>
    rw [List.length_map] at hx
    rw [integers?_eq_some_iff.mp hys, List.length_map] at hy
    exact congrArg (fun o => Reply.ofOption (o.map .int)) (hf ms ns m hx hy hm).symm

theorem call_stays_none (hf : StaysNone f k l) (h : ((Function.builtin b).call hosts budget names xs).1 = .noValue) :
    ((Function.builtin b).call hosts budget names (xs ++ ys)).1 = .noValue := by
  rw [hb] at h ⊢
  refine Reply.ofOption_eq_noValue.mpr (Option.eq_none_iff_forall_ne_some.mpr fun v hv => ?_)
  obtain ⟨all, n, hall, hn, -⟩ := exists_numbers f hv
  obtain ⟨ms, ns, rfl, rfl, rfl⟩ := List.append_eq_map_iff.mp hall
  rw [List.length_map] at hx hy
  rw [Reply.ofOption_eq_noValue, onIntegers_map, Option.map_eq_none_iff] at h
  rw [hf ms ns hx hy h] at hn
  cases hn

end

/-- A call of `+`, `-`, `*` or `/` on the value of such a call and more arguments is the
    call on all arguments, be there a value or none. If the inner call of `-`, `*` or `/`
    has no value, the call on all arguments has none. -/
theorem nested_call_eq_flat (hosts : Hosts) (budget : Nat) (names : NameTable) {b : Builtin}
    (hb : b ∈ [add, sub, mul, div]) (xs ys : List Value)
    (hlen : b = sub ∨ b = div → 2 ≤ xs.length ∧ 1 ≤ ys.length) :
    let call := fun args => ((Function.builtin b).call hosts budget names args).1
    (∀ v, call xs = .value v → call (v :: ys) = call (xs ++ ys)) ∧
      (b ≠ add → call xs = .noValue → call (xs ++ ys) = .noValue) := by
  intro call
  have hx := Nat.zero_le xs.length
  have hy := Nat.zero_le ys.length
  simp only [List.mem_cons, List.not_mem_nil, or_false] at hb
  rcases hb with rfl | rfl | rfl | rfl
  · exact ⟨fun v => call_nested computes_add hosts budget names hx hy nests_addNumbers, fun h => absurd rfl h⟩
  · obtain ⟨hx, hy⟩ := hlen (.inl rfl)
    exact ⟨fun v => call_nested computes_sub hosts budget names hx hy nests_subNumbers.1,
      fun _ => call_stays_none computes_sub hosts budget names hx hy nests_subNumbers.2⟩
  · exact ⟨fun v => call_nested computes_mul hosts budget names hx hy nests_mulNumbers.1,
      fun _ => call_stays_none computes_mul hosts budget names hx hy nests_mulNumbers.2⟩
  · obtain ⟨hx, hy⟩ := hlen (.inr rfl)
    exact ⟨fun v => call_nested computes_div hosts budget names hx hy nests_divNumbers.1,
      fun _ => call_stays_none computes_div hosts budget names hx hy nests_divNumbers.2⟩

/-- Differences that leave the range, the one at the end and the other on its way. -/
theorem nested_call_eq_flat_of_differences :
    let call := fun args => ((Function.builtin sub).call Hosts.none 0 .empty args).1
    (sub ∈ [add, sub, mul, div] ∧ 2 ≤ [Value.int 7, .int 3].length ∧ 2 ≤ [Value.int minWord, .int 1].length ∧
      1 ≤ [Value.int minWord].length ∧ 1 ≤ [Value.int (-1)].length) ∧
      (call [.int 7, .int 3] = .value (.int 4) ∧
        call [.int 4, .int minWord] = call [.int 7, .int 3, .int minWord]) ∧
      call [.int minWord, .int 1] = .noValue ∧ call [.int minWord, .int 1, .int (-1)] = .noValue := by
  have hb : sub ∈ [add, sub, mul, div] := by decide
  obtain ⟨hnested, -⟩ := nested_call_eq_flat Hosts.none 0 .empty hb [.int 7, .int 3] [.int minWord] fun _ => by decide
  obtain ⟨-, hnone⟩ := nested_call_eq_flat Hosts.none 0 .empty hb [.int minWord, .int 1] [.int (-1)] fun _ => by decide
  exact ⟨⟨hb, by decide, by decide, by decide, by decide⟩, ⟨rfl, hnested (.int 4) rfl⟩, rfl, hnone (by decide) rfl⟩

end Builtin

end LineLisp
