/-
  LineLisp.Proofs.Value.Identity — the equality of the language is identity.

  Two values are the same (`Same`) if they are of one kind with one content: vectors have
  as many items, and the same ones at the same places. Values without things of the host
  program (`Native`) are equal exactly if they are the same (`isEqual_iff`, `same_iff`), for
  a comparison that goes through two vectors item by item ends where either ends. Things of
  the host are compared by their worth, so `0.0` and `-0.0` are equal and are written
  differently.

  Hence the built-in `=`, which compares its first argument with each of the others, tells
  whether all arguments are one value, and need not be told which of them comes first
  (`equals_iff`).
-/

import Mathlib.Data.List.Basic
import LineLisp.Function.Call

namespace LineLisp

namespace Value

/-- Nothing in the value, at any depth, is a thing of the host program. -/
inductive Native : Value → Prop
  | nil : Native .nil
  | bool (b : Bool) : Native (.bool b)
  | int (n : Int) : Native (.int n)
  | str (text : Glyphs) : Native (.str text)
  | keyword (name : Name) : Native (.keyword name)
  | vector {items : List Value} : (∀ v ∈ items, Native v) → Native (.vector items)
  | function (f : Function) : Native (.function f)

/-- Two values of one kind with one content. -/
inductive Same : Value → Value → Prop
  | nil : Same .nil .nil
  | bool (b : Bool) : Same (.bool b) (.bool b)
  | int (n : Int) : Same (.int n) (.int n)
  | str (text : Glyphs) : Same (.str text) (.str text)
  | keyword (name : Name) : Same (.keyword name) (.keyword name)
  | vector {as bs : List Value} : as.length = bs.length →
      (∀ (i : Nat) (a b : Value), as[i]? = some a → bs[i]? = some b → Same a b) → Same (.vector as) (.vector bs)
  | function (f : Function) : Same (.function f) (.function f)

variable {a b c : Value}

/-- Items that are equal one by one are as many. -/
theorem areEqual_iff {as : List Value} (h : ∀ a ∈ as, ∀ b, a.isEqual b = true ↔ a = b) (bs : List Value) :
    areEqual as bs = true ↔ as = bs := by
  induction as generalizing bs with
  | nil => cases bs <;> simp [areEqual]
  | cons a as ih =>
    obtain ⟨ha, has⟩ := List.forall_mem_cons.mp h
    cases bs with
    | nil => simp [areEqual]
    | cons b bs => rw [areEqual, Bool.and_eq_true, ha b, ih has bs, List.cons.injEq]

theorem isEqual_iff (ha : a.Native) (b : Value) : a.isEqual b = true ↔ a = b := by
  induction ha generalizing b with
  | vector hitems ih =>
    cases b with
    | vector bs => rw [isEqual, areEqual_iff ih bs, vector.injEq]
    | _ => simp [isEqual]
  | _ => cases b <;> simp [isEqual]

theorem eq_of_same (h : a.Same b) : a = b := by
  induction h with
  | vector hlen _ ih =>
    refine congrArg vector (List.ext_getElem hlen fun i hi hi' => ?_)
    exact ih i _ _ (List.getElem?_eq_getElem hi) (List.getElem?_eq_getElem hi')
  | _ => rfl

theorem same_self (ha : a.Native) : a.Same a := by
  induction ha with
  | vector _ ih =>
    refine .vector rfl fun i a b hia hib => ?_
    obtain rfl : a = b := Option.some.inj (hia.symm.trans hib)
    exact ih a (List.mem_of_getElem? hia)
  | nil => exact .nil
  | bool b => exact .bool b
  | int n => exact .int n
  | str text => exact .str text
  | keyword name => exact .keyword name
  | function f => exact .function f

theorem same_iff (ha : a.Native) : a.Same b ↔ a = b := ⟨eq_of_same, fun h => h ▸ same_self ha⟩

end Value

namespace Builtin

variable {args others : List Value}

/-- Whether every two of the values are equal. -/
def AllEqual (args : List Value) : Prop := ∀ v ∈ args, ∀ w ∈ args, v.isEqual w = true

/-- To compare all with the first is to compare every two. -/
theorem equals_iff (hargs : ∀ v ∈ args, v.Native) (hne : args ≠ []) :
    ∃ same, equals args = some same ∧ (same = true ↔ AllEqual args) := by
  obtain ⟨v, vs, rfl⟩ := List.exists_cons_of_ne_nil hne
  refine ⟨vs.all v.isEqual, rfl, ?_⟩
  rw [List.all_eq_true]
  constructor
  · intro h
    have hfirst : ∀ w ∈ v :: vs, v = w := by
      intro w hw
      rcases List.mem_cons.mp hw with rfl | hw
      · rfl
      · exact (Value.isEqual_iff (hargs v List.mem_cons_self) w).mp (h w hw)
    intro x hx y hy
    rw [Value.isEqual_iff (hargs x hx), ← hfirst x hx, ← hfirst y hy]
  · intro h w hw
    exact h v List.mem_cons_self w (List.mem_cons_of_mem v hw)

theorem allEqual_perm (h : others.Perm args) : AllEqual others ↔ AllEqual args := by
  simp only [AllEqual, h.mem_iff]

theorem run_equal (names : NameTable) {same : Bool} (h : equals args = some same) :
    equal.run names args = (.value (.bool same), names) ∧ notEqual.run names args = (.value (.bool !same), names) := by
  constructor <;> rw [run, h] <;> rfl

/-- Comparing takes as much stack for `not=` as for `=`. -/
theorem call_equal (hosts : Hosts) {budget : Nat} (names : NameTable) (h : equal.stackNeed args ≤ budget) :
    (Function.builtin equal).call hosts budget names args = equal.run names args ∧
      (Function.builtin notEqual).call hosts budget names args = notEqual.run names args := by
  have hnot : notEqual.stackNeed args ≤ budget := h
  constructor
  · rw [Function.call, if_neg (Nat.not_lt.mpr h)]
  · rw [Function.call, if_neg (Nat.not_lt.mpr hnot)]

/-- Equality of values is sameness of kind and content, and is an equivalence; what is
    equal is printed alike, whatever table the names are of. In whatever order arguments
    come, `=` tells whether every two of them are equal, and `not=` tells the opposite; a
    call says so that has the stack for comparing them. -/
theorem equality_is_identity {a b c : Value} (ha : a.Native) (hb : b.Native) (hargs : ∀ v ∈ args, v.Native)
    (hne : args ≠ []) :
    (a.isEqual b = true ↔ a.Same b) ∧ (a.Same b ↔ a = b) ∧
      a.isEqual a = true ∧ (a.isEqual b = true → b.isEqual a = true) ∧
      (a.isEqual b = true → b.isEqual c = true → a.isEqual c = true) ∧
      (a.isEqual b = true → ∀ names, a.display names = b.display names) ∧
      ∃ same, (same = true ↔ AllEqual args) ∧ ∀ others, others.Perm args → ∀ names,
        equal.run names others = (.value (.bool same), names) ∧
        notEqual.run names others = (.value (.bool !same), names) ∧
        ∀ hosts budget, equal.stackNeed others ≤ budget →
          (Function.builtin equal).call hosts budget names others = (.value (.bool same), names) ∧
          (Function.builtin notEqual).call hosts budget names others = (.value (.bool !same), names) := by
  have heq : a.isEqual b = true → a = b := (Value.isEqual_iff ha b).mp
  refine ⟨(Value.isEqual_iff ha b).trans (Value.same_iff ha).symm, Value.same_iff ha, (Value.isEqual_iff ha a).mpr rfl,
    fun h => (Value.isEqual_iff hb a).mpr (heq h).symm, fun h h' => heq h ▸ h',
    fun h names => congrArg (Value.display names) (heq h), ?_⟩
  obtain ⟨same, -, hiff⟩ := equals_iff hargs hne
  refine ⟨same, hiff, fun others hperm names => ?_⟩
  have hnative : ∀ v ∈ others, v.Native := fun v hv => hargs v (hperm.mem_iff.mp hv)
  have hothersNe : others ≠ [] := fun hnil => hne (List.nil_perm.mp (hnil ▸ hperm))
  obtain ⟨same', hsame', hiff'⟩ := equals_iff hnative hothersNe
  obtain rfl : same' = same := by rw [Bool.eq_iff_iff, hiff, hiff', allEqual_perm hperm]
  obtain ⟨hequal, hnot⟩ := run_equal names hsame'
  refine ⟨hequal, hnot, fun hosts budget hneed => ?_⟩
  rw [← hequal, ← hnot]
  exact call_equal hosts names hneed

/-- One and true are not equal, and make no vectors equal that hold them. -/
theorem equality_is_identity_of_one_and_true :
    let one : Value := .vector [.int 1, .vector []]
    let yes : Value := .vector [.bool true, .vector []]
    (one.Native ∧ yes.Native ∧ (∀ v ∈ [one, one, yes], v.Native) ∧ [one, one, yes] ≠ []) ∧
      one.isEqual yes = false ∧
      (Function.builtin equal).call Hosts.none 985 .empty [yes, one, one] = (.value (.bool false), .empty) := by
  intro one yes
  have hitem {v : Value} (h : v.Native) : ∀ w ∈ [v, .vector []], w.Native := by
    simpa using ⟨h, .vector fun _ hw => nomatch hw⟩
  have hone : one.Native := .vector (hitem (.int 1))
  have hyes : yes.Native := .vector (hitem (.bool true))
  have hall : ∀ v ∈ [one, one, yes], v.Native := by simp [hone, hyes]
  have hsome : [one, one, yes] ≠ [] := List.cons_ne_nil _ _
  obtain ⟨hiff, hidentity, -, -, -, -, same, hsame, hcall⟩ := @equality_is_identity _ one yes one hone hyes hall hsome
  have hne : one ≠ yes := fun h => nomatch (List.cons.inj (Value.vector.inj h)).1
  have hdiffer : ¬ one.isEqual yes = true := fun h => hne (hidentity.mp (hiff.mp h))
  have hfalse : same = false :=
    Bool.eq_false_iff.mpr fun h => hdiffer (hsame.mp h one List.mem_cons_self yes (by simp))
  have hperm : [yes, one, one].Perm [one, one, yes] :=
    (List.perm_append_comm : ([yes] ++ [one, one]).Perm ([one, one] ++ [yes]))
  obtain ⟨-, -, hbudget⟩ := hcall [yes, one, one] hperm .empty
  obtain ⟨hequal, -⟩ := hbudget Hosts.none 985 (by decide)
  exact ⟨⟨hone, hyes, hall, hsome⟩, Bool.eq_false_iff.mpr hdiffer, by rw [hequal, hfalse]⟩

end Builtin

end LineLisp
