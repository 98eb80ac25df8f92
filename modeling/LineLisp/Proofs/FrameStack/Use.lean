/-
  LineLisp.Proofs.FrameStack.Use — a stack under any order of steps: names written,
  frames entered and left, frames put on top that nobody entered and nobody leaves.

  While a frame is entered and not left, nothing is taken off below it and nothing is
  written there (`Stands`): what `n` entered frames and `c` others stand on is left alone
  by every step (`Stands.step`) and so by every sequence of steps that leaves no more
  frames than it enters (`Stands.run`). Leaving takes the topmost frame off, so that is
  the frame entered exactly if no other was put on since, and then the frames are those
  that were there before (`Stands.leave`). Else the entered frame stays behind, and so do
  those entered before it when their turn comes.
-/

import Mathlib.Data.List.Induction
import LineLisp.FrameStack.Use

namespace LineLisp

/-! ## Steps -/

namespace StackStep

variable {κ ν ε : Type}

def isEnter : StackStep κ ν ε → Bool
  | enter _ => true
  | _ => false

def isLeave : StackStep κ ν ε → Bool
  | leave _ => true
  | _ => false

def isAppend : StackStep κ ν ε → Bool
  | append _ => true
  | _ => false

/-- How many frames are entered and not left after a step, of `n` before it. Without one
    there is none to leave. -/
def count : Nat → StackStep κ ν ε → Option Nat
  | n, enter _ => some (n + 1)
  | 0, leave _ => none
  | n + 1, leave _ => some n
  | n, _ => some n

/-- How many frames are entered and not left after some steps, of `n` before them. -/
def opened (n : Nat) (steps : List (StackStep κ ν ε)) : Option Nat := steps.foldlM count n

/-- Takes steps one after another. -/
def run {σ α : Type} (step : σ → StackStep κ ν ε → Option (α × σ)) (s : σ) (steps : List (StackStep κ ν ε)) : Option σ :=
  steps.foldlM (fun s x => (step s x).map Prod.snd) s

theorem opened_cons (n : Nat) (x : StackStep κ ν ε) (xs : List (StackStep κ ν ε)) :
    opened n (x :: xs) = (count n x).bind fun m => opened m xs :=
  List.foldlM_cons

theorem opened_append (n : Nat) (xs ys : List (StackStep κ ν ε)) :
    opened n (xs ++ ys) = (opened n xs).bind fun m => opened m ys :=
  List.foldlM_append

theorem opened_concat (n : Nat) (xs : List (StackStep κ ν ε)) (x : StackStep κ ν ε) :
    opened n (xs ++ [x]) = (opened n xs).bind fun m => count m x := by
  simp [opened]

theorem run_append {σ α : Type} (step : σ → StackStep κ ν ε → Option (α × σ)) (s : σ) (xs ys : List (StackStep κ ν ε)) :
    run step s (xs ++ ys) = (run step s xs).bind fun t => run step t ys :=
  List.foldlM_append

theorem run_cons {σ α : Type} {step : σ → StackStep κ ν ε → Option (α × σ)} {s t : σ} {x : StackStep κ ν ε} {a : α}
    (h : step s x = some (a, t)) (xs : List (StackStep κ ν ε)) : run step s (x :: xs) = run step t xs := by
  rw [run, List.foldlM_cons, h]
  rfl

/-- Frames entered are left or not left. -/
theorem countP_isEnter {n m : Nat} {xs : List (StackStep κ ν ε)} (h : opened n xs = some m) :
    n + xs.countP isEnter = xs.countP isLeave + m := by
  induction xs generalizing n with
  | nil => cases h; simp
  | cons x xs ih =>
    rw [opened_cons] at h
    obtain ⟨k, hk, hrest⟩ := Option.bind_eq_some_iff.mp h
    have := ih hrest
    have hn : n + (if isEnter x then 1 else 0) = (if isLeave x then 1 else 0) + k := by
      cases x with
      | leave inFlight =>
        cases n with
        | zero => cases hk
        | succ n => rw [← Option.some.inj hk]; exact Nat.add_comm n 1
      | enter f => cases hk; exact (Nat.zero_add _).symm
      | _ => cases hk; exact (Nat.zero_add _).symm
    simp only [List.countP_cons]
    omega

theorem countP_isAppend_eq_zero_iff {xs : List (StackStep κ ν ε)} :
    xs.countP isAppend = 0 ↔ ∀ f, .append f ∉ xs := by
  rw [List.countP_eq_zero]
  refine ⟨fun h f hf => h _ hf rfl, fun h x hx => ?_⟩
  cases x with
  | append f => exact absurd hx (h f)
  | _ => exact Bool.false_ne_true

/-- The frame entered as the `i`-th of those that are not left, and what was done since:
    all that was entered since is left again, but for the frames that come after it. -/
theorem exists_entered {xs : List (StackStep κ ν ε)} {n : Nat} (h : opened 0 xs = some n) {i : Nat} (hi : i < n) :
    ∃ before f since, xs = before ++ .enter f :: since ∧ opened 0 since = some (n - 1 - i) := by
  induction xs using List.reverseRecOn generalizing n with
  | nil => cases h; omega
  | append_singleton xs x ih =>
    rw [opened_concat] at h
    obtain ⟨m, hm, hcount⟩ := Option.bind_eq_some_iff.mp h
    -- a frame entered before stays entered, unless this step leaves it
    have hearlier (him : i < m) (hstep : count (m - 1 - i) x = some (n - 1 - i)) :
        ∃ before f since, xs ++ [x] = before ++ .enter f :: since ∧ opened 0 since = some (n - 1 - i) := by
      obtain ⟨before, f, since, rfl, hsince⟩ := ih hm him
      refine ⟨before, f, since ++ [x], by simp, ?_⟩
      rw [opened_concat, hsince, Option.bind_some, hstep]
    cases x with
    | enter f =>
      cases hcount
      by_cases him : i < m
      · exact hearlier him (by simp only [count]; congr 1; omega)
      · exact ⟨xs, f, [], rfl, by simp only [opened, List.foldlM_nil]; exact congrArg some (by omega)⟩
    | leave inFlight =>
      cases m with
      | zero => cases hcount
      | succ m =>
        have hmn : m = n := Option.some.inj hcount
        have hsplit : m + 1 - 1 - i = (n - 1 - i) + 1 := by omega
        exact hearlier (by omega) (by rw [hsplit]; rfl)
    | _ =>
      cases hcount
      exact hearlier hi rfl

end StackStep

/-! ## A stack in use -/

namespace FrameStack

variable {κ ν : Type}

theorem depth_eq_length (s : FrameStack κ ν) : s.depth = s.frames.length := by simp [depth, frames]

theorem frames_ne_nil (s : FrameStack κ ν) : s.frames ≠ [] := by simp [frames]

/-- The topmost frame is taken off, if there is one below it. -/
theorem frames_pop {s : FrameStack κ ν} {f g : Frame κ ν} {rest : List (Frame κ ν)} (h : s.frames = f :: g :: rest) :
    s.pop.frames = g :: rest := by
  rcases s with ⟨bottom, _ | ⟨top, upper⟩⟩
  · cases h
  · exact (List.cons.inj h).2

variable [DecidableEq κ]

/-- What is written is written into the topmost frame. -/
theorem frames_insertAll (s : FrameStack κ ν) (pairs : List (κ × ν)) :
    ∃ top rest, s.frames = top :: rest ∧ (s.insertAll pairs).frames = top.insertAll pairs :: rest := by
  induction pairs generalizing s with
  | nil =>
    obtain ⟨top, rest, h⟩ := List.exists_cons_of_ne_nil s.frames_ne_nil
    exact ⟨top, rest, h, h⟩
  | cons p pairs ih =>
    obtain ⟨top, rest, htop, hrest⟩ := ih (s.insert p.1 p.2)
    rcases s with ⟨bottom, _ | ⟨f, upper⟩⟩
    all_goals
      cases htop
      exact ⟨_, _, rfl, hrest⟩

/-- The topmost frame that binds the name binds it to this value. -/
def Shows (s : FrameStack κ ν) (k : κ) (v : ν) : Prop :=
  ∃ above f below, s.frames = above ++ f :: below ∧ f.get? k = some v ∧ ∀ g ∈ above, g.contains k = false

theorem get?_eq_some_iff {s : FrameStack κ ν} {k : κ} {v : ν} : s.get? k = some v ↔ s.Shows k v := by
  simp only [get?, List.findSome?_eq_some_iff, Shows, Frame.contains, Option.isSome_eq_false_iff, Option.isNone_iff_eq_none]

end FrameStack

namespace StackUse

open StackStep (count opened)

variable {κ ν ε : Type}

/-- On the frames `below` stand one frame, `n` more that were entered and are not left and
    `c` more that nobody entered. The marks of the `n` come before all others. -/
structure Stands (marks : List Nat) (below : List (Frame κ ν)) (n c : Nat) (u : StackUse κ ν) : Prop where
  marks : ∃ since, u.marks = since ++ marks ∧ since.length = n
  frames : ∃ above, u.stack.frames = above ++ below ∧ above.length = n + c + 1

theorem stands_start (global : Frame κ ν) : Stands [] [] 0 0 (start global) :=
  ⟨⟨[], rfl, rfl⟩, [global], rfl, rfl⟩

theorem stands_enter (u : StackUse κ ν) (f : Frame κ ν) :
    Stands ((u.stack.depth + 1) :: u.marks) u.stack.frames 0 0 ⟨u.stack.push f, (u.stack.depth + 1) :: u.marks⟩ :=
  ⟨⟨[], rfl, rfl⟩, [f], rfl, rfl⟩

variable [DecidableEq κ]

variable {marks : List Nat} {below : List (Frame κ ν)} {n c m : Nat} {u : StackUse κ ν}

theorem step_leave {mark : Nat} (h : u.marks = mark :: marks) (inFlight : Option ε) :
    u.step (.leave inFlight)
      = some (if u.stack.depth = mark then .ok inFlight else .error .framesOutOfOrder, ⟨u.stack.pop, marks⟩) := by
  simp only [step, h, FrameStack.leave, beq_iff_eq]

/-! ## Steps above a frame -/

theorem Stands.write (h : Stands marks below n c u) (pairs : List (κ × ν)) :
    Stands marks below n c { u with stack := u.stack.insertAll pairs } := by
  obtain ⟨hmarks, above, hframes, habove⟩ := h
  obtain ⟨top, rest, htop, hwritten⟩ := u.stack.frames_insertAll pairs
  cases above with
  | nil => simp at habove
  | cons f above =>
    obtain ⟨-, hrest⟩ := List.cons.inj (htop.symm.trans hframes)
    exact ⟨hmarks, top.insertAll pairs :: above, by rw [hwritten, hrest]; rfl, habove⟩

/-- Leaving takes a frame off that is above the ones stood on, and one mark. -/
theorem Stands.left (h : Stands marks below (n + 1) c u) (inFlight : Option ε) :
    ∃ answer v, u.step (.leave inFlight) = some (answer, v) ∧ Stands marks below n c v := by
  obtain ⟨⟨since, hmarks, hsince⟩, above, hframes, habove⟩ := h
  match since, above with
  | [], _ => cases hsince
  | _, [] => cases habove
  | _, [_] => simp at habove
  | mark :: since, f :: g :: above =>
    have hpop : u.stack.pop.frames = g :: (above ++ below) := FrameStack.frames_pop hframes
    have hlen : (g :: above).length = n + c + 1 := by
      simp only [List.length_cons] at habove ⊢
      omega
    exact ⟨_, _, step_leave hmarks inFlight, ⟨since, rfl, Nat.succ.inj hsince⟩, g :: above, hpop, hlen⟩

/-- A step leaves alone what is stood on. -/
theorem Stands.step (h : Stands marks below n c u) {x : StackStep κ ν ε} (hx : count n x = some m) :
    ∃ answer v, u.step x = some (answer, v) ∧ Stands marks below m (c + if x.isAppend then 1 else 0) v := by
  cases x with
  | insert k v =>
    cases hx
    exact ⟨_, _, rfl, h.write [(k, v)]⟩
  | update pairs =>
    cases hx
    exact ⟨_, _, rfl, h.write pairs⟩
  | enter f =>
    cases hx
    obtain ⟨⟨since, hmarks, hsince⟩, above, hframes, habove⟩ := h
    refine ⟨_, _, rfl, ⟨(u.stack.enter f).1 :: since, congrArg _ hmarks, congrArg _ hsince⟩,
      f :: above, congrArg _ hframes, ?_⟩
    simp only [List.length_cons, StackStep.isAppend, Bool.false_eq_true, if_false]
    omega
  | leave inFlight =>
    cases n with
    | zero => cases hx
    | succ n =>
      rw [← Option.some.inj hx]
      exact h.left inFlight
  | append f =>
    cases hx
    obtain ⟨hmarks, above, hframes, habove⟩ := h
    refine ⟨_, _, rfl, hmarks, f :: above, congrArg _ hframes, ?_⟩
    simp only [List.length_cons, StackStep.isAppend, if_true]
    omega

theorem Stands.run {xs : List (StackStep κ ν ε)} (h : Stands marks below n c u) (hxs : opened n xs = some m) :
    ∃ v, StackStep.run StackUse.step u xs = some v ∧ Stands marks below m (c + xs.countP StackStep.isAppend) v := by
  induction xs generalizing n c u with
  | nil => cases hxs; exact ⟨u, rfl, h⟩
  | cons x xs ih =>
    rw [StackStep.opened_cons] at hxs
    obtain ⟨k, hx, hrest⟩ := Option.bind_eq_some_iff.mp hxs
    obtain ⟨answer, v, hv, hstep⟩ := h.step hx
    obtain ⟨w, hw, hstands⟩ := ih hstep hrest
    refine ⟨w, by rw [StackStep.run_cons hv, hw], ?_⟩
    rwa [List.countP_cons, Nat.add_comm (xs.countP _), ← Nat.add_assoc]

/-- A frame entered somewhere in a sequence stands on the frames of that moment as long as
    it is not left. -/
theorem stands_on_base {global f : Frame κ ν} {before since : List (StackStep κ ν ε)}
    (h : opened 0 (before ++ .enter f :: since) = some n) (hsince : opened 0 since = some m)
    (hu : StackStep.run StackUse.step (start global) (before ++ .enter f :: since) = some u) :
    ∃ base, StackStep.run StackUse.step (start global) before = some base ∧
      Stands ((base.stack.depth + 1) :: base.marks) base.stack.frames m (since.countP StackStep.isAppend) u := by
  rw [StackStep.opened_append] at h
  obtain ⟨i, hbefore, -⟩ := Option.bind_eq_some_iff.mp h
  obtain ⟨base, hbase, -⟩ := (stands_start global).run hbefore
  obtain ⟨v, hv, hstands⟩ := (stands_enter base f).run hsince
  rw [StackStep.run_append, hbase, Option.bind_some, StackStep.run_cons rfl] at hu
  obtain rfl : v = u := Option.some.inj (hv.symm.trans hu)
  exact ⟨base, hbase, by rwa [Nat.zero_add] at hstands⟩

/-- The frame entered last is left in order if no other was put on since, and then the
    frames are those that were there before. -/
theorem Stands.leave {base : StackUse κ ν}
    (h : Stands ((base.stack.depth + 1) :: base.marks) base.stack.frames 0 c u) (inFlight : Option ε) :
    ∃ top v, u.step (.leave inFlight) = some (if c = 0 then .ok inFlight else .error .framesOutOfOrder, v) ∧
      u.stack.frames = top :: v.stack.frames ∧ (c = 0 → v.stack.frames = base.stack.frames) := by
  obtain ⟨⟨since, hmarks, hsince⟩, above, hframes, habove⟩ := h
  have hdepth : u.stack.depth = c + 1 + base.stack.depth := by
    rw [FrameStack.depth_eq_length, hframes, List.length_append, habove, ← FrameStack.depth_eq_length, Nat.zero_add]
  obtain rfl := List.length_eq_zero_iff.mp hsince
  cases above with
  | nil => cases habove
  | cons top above =>
    obtain ⟨g, rest, hrest⟩ := List.exists_cons_of_ne_nil (List.append_ne_nil_of_right_ne_nil above base.stack.frames_ne_nil)
    have hpop : u.stack.pop.frames = above ++ base.stack.frames := by
      rw [hrest]
      exact FrameStack.frames_pop (hframes.trans (congrArg _ hrest))
    refine ⟨top, ⟨u.stack.pop, base.marks⟩, ?_, by rw [hpop, hframes]; rfl, fun hc => ?_⟩
    · rw [step_leave hmarks, if_congr (by omega : u.stack.depth = base.stack.depth + 1 ↔ c = 0) rfl rfl]
    · have hnil : above = [] := by
        rw [hc] at habove
        exact List.length_eq_zero_iff.mp (Nat.succ.inj habove)
      rw [hpop, hnil, List.nil_append]

end StackUse

end LineLisp
