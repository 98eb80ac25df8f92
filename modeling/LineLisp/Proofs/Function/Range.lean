/-
  LineLisp.Proofs.Function.Range — a function of integers in the range of a word has its
  integers there too.

  Most built-ins check their result against the range. A remainder is not checked; it is
  nearer to zero than the divisor, which is in the range (`inWord_fmod`). So a call on
  values in the range has a value in the range (`Function.call_inRange`), as long as the
  host functions keep to it.
-/

import LineLisp.Proofs.Function.Numbers

namespace LineLisp

/-! ## Values -/

namespace Value

mutual

/-- The integers in a value, however deep in vectors. -/
def integers : Value → List Int
  | int n => [n]
  | vector items => integersEach items
  | _ => []

def integersEach : List Value → List Int
  | [] => []
  | v :: vs => v.integers ++ integersEach vs

end

def InRange (v : Value) : Prop := ∀ n ∈ v.integers, InWord n

theorem inRange_int {n : Int} : (int n).InRange ↔ InWord n := by simp [InRange, integers]

theorem inRange_of_integers_eq_nil {v : Value} (h : v.integers = []) : v.InRange := by simp [InRange, h]

theorem integersEach_eq_flatMap (vs : List Value) : integersEach vs = vs.flatMap integers := by
  induction vs with
  | nil => simp [integersEach]
  | cons v vs ih => simp [integersEach, ih]

theorem inRange_vector {items : List Value} : (vector items).InRange ↔ ∀ v ∈ items, v.InRange := by
  simp only [InRange, integers, integersEach_eq_flatMap, List.mem_flatMap]
  exact ⟨fun h v hv n hn => h n ⟨v, hv, hn⟩, fun h n ⟨v, hv, hn⟩ => h v hv n hn⟩

end Value

/-! ## Built-ins -/

def Reply.InRange (r : Reply) : Prop := ∀ v, r = .value v → v.InRange

theorem Reply.value_inRange {v : Value} : (Reply.value v).InRange ↔ v.InRange :=
  ⟨fun h => h v rfl, fun h w hw => by cases hw; exact h⟩

theorem Reply.ofOption_inRange {o : Option Value} (h : ∀ v, o = some v → v.InRange) : (Reply.ofOption o).InRange := by
  cases o with
  | none => exact fun v hv => nomatch hv
  | some v => exact value_inRange.mpr (h v rfl)

/-- Host functions that keep to the range. -/
def Hosts.InRange (hosts : Hosts) : Prop :=
  ∀ serial args, (∀ v ∈ args, Value.InRange v) → (hosts serial args).InRange

theorem Hosts.none_inRange : Hosts.none.InRange := fun _ _ _ _ h => nomatch h

/-- A remainder lies between zero and the divisor. -/
theorem inWord_fmod {b : Int} (hb : InWord b) (h0 : b ≠ 0) (a : Int) : InWord (a.fmod b) := by
  obtain ⟨hlo, hhi⟩ := hb
  have hmin : minWord < 0 := by decide
  have hmax : 0 < maxWord := by decide
  by_cases hpos : 0 < b
  · have := Int.fmod_nonneg_of_pos a hpos
    have := Int.fmod_lt_of_pos a hpos
    exact ⟨by omega, by omega⟩
  · have hneg : 0 < -b := by omega
    have hflip : a.fmod b = -(-a).fmod (-b) := by rw [Int.neg_fmod_neg, Int.neg_neg]
    have := Int.fmod_nonneg_of_pos (-a) hneg
    have := Int.fmod_lt_of_pos (-a) hneg
    exact ⟨by omega, by omega⟩

namespace Builtin

/-- A function of numbers in the range that has its values there too. -/
def KeepsRange (f : List Int → Option Int) : Prop := ∀ ns m, (∀ n ∈ ns, InWord n) → f ns = some m → InWord m

theorem keepsRange_combine {op : Int → Int → Option Int} (hop : ∀ a b m, op a b = some m → InWord m) :
    KeepsRange (combine op) := by
  intro ns m hns h
  cases ns with
  | nil => cases h
  | cons n ns => exact inWord_of_combine hop (hns n List.mem_cons_self) h

theorem keepsRange_addNumbers : KeepsRange addNumbers := fun _ _ _ h => inWord_of_checkWord h

theorem keepsRange_subNumbers : KeepsRange subNumbers := by
  intro ns m hns h
  unfold subNumbers at h
  split at h
  · exact inWord_of_checkWord h
  · exact keepsRange_combine (fun _ _ _ => inWord_of_checkWord) ns m hns h

theorem keepsRange_mulNumbers : KeepsRange mulNumbers := fun _ _ _ h => inWord_mulNumbers h

theorem keepsRange_divNumbers : KeepsRange divNumbers := by
  intro ns m hns h
  unfold divNumbers at h
  split at h
  · cases h
  · refine keepsRange_combine (fun a b q hq => ?_) ns m hns h
    unfold quotient at hq
    split at hq
    · cases hq
    · exact inWord_of_checkWord hq

theorem keepsRange_modNumbers : KeepsRange modNumbers := by
  intro ns m hns h
  unfold modNumbers at h
  split at h
  · rename_i a b
    split at h
    · cases h
    · rename_i h0
      cases h
      exact inWord_fmod (hns b (by simp)) h0 a
  · cases h

variable {args : List Value}

theorem onIntegers_inRange {f : List Int → Option Int} (hf : KeepsRange f) (h : ∀ v ∈ args, v.InRange) :
    (Reply.ofOption (onIntegers f args)).InRange := by
  refine Reply.ofOption_inRange fun v hv => ?_
  obtain ⟨ns, m, rfl, hm, rfl⟩ := exists_numbers f hv
  have hwords : ∀ n ∈ ns, InWord n := fun n hn => Value.inRange_int.mp (h _ (List.mem_map_of_mem hn))
  exact Value.inRange_int.mpr (hf ns m hwords hm)

theorem ofBool_inRange (o : Option Bool) (f : Bool → Bool) : (Reply.ofOption (o.map fun b => .bool (f b))).InRange := by
  refine Reply.ofOption_inRange fun v hv => ?_
  obtain ⟨b, -, rfl⟩ := Option.map_eq_some_iff.mp hv
  exact Value.inRange_of_integers_eq_nil rfl

theorem countOf_inRange (args : List Value) : (Reply.ofOption (countOf args)).InRange := by
  refine Reply.ofOption_inRange fun v hv => ?_
  unfold countOf at hv
  split at hv
  · obtain ⟨n, hn, rfl⟩ := Option.map_eq_some_iff.mp hv
    exact Value.inRange_int.mpr (inWord_of_checkWord hn)
  · obtain ⟨n, hn, rfl⟩ := Option.map_eq_some_iff.mp hv
    exact Value.inRange_int.mpr (inWord_of_checkWord hn)
  · cases hv

theorem negated_inRange (args : List Value) : (Reply.ofOption (negated args)).InRange := by
  refine Reply.ofOption_inRange fun v hv => ?_
  unfold negated at hv
  split at hv <;> cases hv
  exact Value.inRange_of_integers_eq_nil rfl

theorem concatenated_inRange (names : NameTable) (args : List Value) : (concatenated names args).InRange := by
  unfold concatenated
  split
  · exact Reply.value_inRange.mpr (Value.inRange_of_integers_eq_nil rfl)
  · exact fun v hv => nomatch hv

theorem run_inRange (names : NameTable) (h : ∀ v ∈ args, v.InRange) (b : Builtin) : (b.run names args).1.InRange := by
  cases b with
  | add => exact onIntegers_inRange keepsRange_addNumbers h
  | sub => exact onIntegers_inRange keepsRange_subNumbers h
  | mul => exact onIntegers_inRange keepsRange_mulNumbers h
  | div => exact onIntegers_inRange keepsRange_divNumbers h
  | mod => exact onIntegers_inRange keepsRange_modNumbers h
  | equal | less | lessEqual | greater | greaterEqual => exact ofBool_inRange _ id
  | notEqual => exact ofBool_inRange _ Bool.not
  | not => exact negated_inRange args
  | vector => exact Reply.value_inRange.mpr (Value.inRange_vector.mpr h)
  | count => exact countOf_inRange args
  | str => exact concatenated_inRange names args
  | keyword =>
    simp only [run]
    split
    · exact Reply.value_inRange.mpr (Value.inRange_of_integers_eq_nil rfl)
    · exact fun v hv => nomatch hv

end Builtin

theorem Function.call_inRange {hosts : Hosts} (hh : hosts.InRange) (budget : Nat) (names : NameTable) {args : List Value}
    (h : ∀ v ∈ args, v.InRange) (f : Function) : (f.call hosts budget names args).1.InRange := by
  cases f with
  | builtin b =>
    simp only [call]
    split
    · intro v hv
      cases hv
    · exact b.run_inRange names h
  | host serial label => exact hh serial args h

end LineLisp
