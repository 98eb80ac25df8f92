/-
  LineLisp.Proofs.FrameStack.Identity — a mark of a depth tells frames apart.

  Beside the stack with marks runs one whose frames are known by who they are: each has a
  serial number that no other frame ever has, and leaving compares the number of the frame
  taken off with that of the frame entered. The serials fall from the top to the bottom,
  so the mark of an entered frame is the number of serials up to its own
  (`height`), and its depth is reached exactly if it is on top. Step by step the two give
  the same answers (`Tells.step`), so a stack answers by its marks as by identity in any
  order of steps, and its bottom frame is the one it began with.

  With that, what `Stands` says of one frame makes the account of all
  (`frames_come_and_go`).
-/

import LineLisp.Proofs.FrameStack.Use

namespace LineLisp

/-- A stack of frames with serial numbers, the topmost first. -/
structure KnownStack (κ ν : Type) where
  frames : List (Nat × Frame κ ν)
  /-- The serials of the frames entered and not left, the latest first. -/
  entered : List Nat
  next : Nat

namespace KnownStack

variable {κ ν ε : Type}

def start (global : Frame κ ν) : KnownStack κ ν := ⟨[(0, global)], [], 1⟩

/-- The frames' serials, the topmost first. -/
def serials (w : KnownStack κ ν) : List Nat := w.frames.map Prod.fst

/-- Puts a frame on top, with a serial of its own. -/
def push (w : KnownStack κ ν) (f : Frame κ ν) : KnownStack κ ν :=
  { w with frames := (w.next, f) :: w.frames, next := w.next + 1 }

theorem serials_push (w : KnownStack κ ν) (f : Frame κ ν) : (w.push f).serials = w.next :: w.serials := rfl

variable [DecidableEq κ]

def write (w : KnownStack κ ν) (pairs : List (κ × ν)) : Option (KnownStack κ ν) :=
  match w.frames with
  | [] => none
  | (n, f) :: rest => some { w with frames := (n, f.insertAll pairs) :: rest }

def step (w : KnownStack κ ν) : StackStep κ ν ε → Option (StackAnswer ε × KnownStack κ ν)
  | .insert k v => (w.write [(k, v)]).map (.ok none, ·)
  | .update pairs => (w.write pairs).map (.ok none, ·)
  | .enter f => some (.ok none, { w.push f with entered := w.next :: w.entered })
  | .leave inFlight =>
    match w.entered, w.frames with
    | n :: entered, (m, _) :: frames =>
      some (if m = n then .ok inFlight else .error .framesOutOfOrder, { w with frames, entered })
    | _, _ => none
  | .append f => some (.ok none, w.push f)

end KnownStack

/-! ## The height of a frame -/

/-- How many serials there are up to a given one. -/
def height (serials : List Nat) (n : Nat) : Nat := serials.countP (· ≤ n)

theorem height_cons_of_lt {serials : List Nat} {n m : Nat} (h : n < m) : height (m :: serials) n = height serials n := by
  simp [height, h]

/-- A frame is as high as the stack exactly if all others came before it. -/
theorem height_eq_length_iff {serials : List Nat} {n : Nat} : height serials n = serials.length ↔ ∀ m ∈ serials, m ≤ n := by
  simp [height, List.countP_eq_length]

/-- The two stacks have the same frames, and the marks are the heights of the frames entered. -/
structure Tells {κ ν : Type} (u : StackUse κ ν) (w : KnownStack κ ν) : Prop where
  frames : w.frames.map Prod.snd = u.stack.frames
  marks : u.marks = w.entered.map (height w.serials)
  /-- The serials fall from the top on, and so do those of the frames entered. -/
  falling : w.serials.Pairwise (· > ·)
  entered_falling : w.entered.Pairwise (· > ·)
  entered_mem : ∀ n ∈ w.entered, n ∈ w.serials ∧ 0 < n
  fresh : ∀ n ∈ w.serials, n < w.next
  bottom : w.serials.getLast? = some 0

namespace Tells

variable {κ ν ε : Type} {u v : StackUse κ ν} {w : KnownStack κ ν}

theorem start (global : Frame κ ν) : Tells (.start global) (.start global) where
  frames := rfl
  marks := rfl
  falling := List.pairwise_singleton _ _
  entered_falling := .nil
  entered_mem := fun _ h => nomatch h
  fresh := List.forall_mem_singleton.mpr Nat.one_pos
  bottom := rfl

theorem length_serials (h : Tells u w) : w.serials.length = u.stack.depth := by
  rw [FrameStack.depth_eq_length, ← h.frames, KnownStack.serials, List.length_map, List.length_map]

/-- The height of a frame that is entered is not changed by one that comes later. -/
theorem map_height_cons {serials entered : List Nat} {m : Nat} (h : ∀ n ∈ entered, n < m) :
    entered.map (height (m :: serials)) = entered.map (height serials) :=
  List.map_congr_left fun n hn => height_cons_of_lt (h n hn)

theorem push (h : Tells u w) (f : Frame κ ν) : Tells { u with stack := u.stack.push f } (w.push f) where
  frames := congrArg (f :: ·) h.frames
  marks := h.marks.trans (map_height_cons fun n hn => h.fresh n (h.entered_mem n hn).1).symm
  falling := List.pairwise_cons.mpr ⟨h.fresh, h.falling⟩
  entered_falling := h.entered_falling
  entered_mem := fun n hn => ⟨List.mem_cons_of_mem _ (h.entered_mem n hn).1, (h.entered_mem n hn).2⟩
  fresh := List.forall_mem_cons.mpr ⟨Nat.lt_succ_self _, fun n hn => Nat.lt_succ_of_lt (h.fresh n hn)⟩
  bottom := by rw [KnownStack.serials_push, List.getLast?_cons, h.bottom]; rfl

theorem enter (h : Tells u w) (f : Frame κ ν) :
    Tells ⟨u.stack.push f, (u.stack.depth + 1) :: u.marks⟩ { w.push f with entered := w.next :: w.entered } := by
  have hp := h.push f
  have hnext : 0 < w.next := h.fresh 0 (List.mem_of_getLast? h.bottom)
  have hheight : height (w.push f).serials w.next = u.stack.depth + 1 := by
    rw [height_eq_length_iff.mpr fun m hm => Nat.le_of_lt_succ (hp.fresh m hm)]
    exact congrArg Nat.succ h.length_serials
  exact {
    hp with
    marks := List.cons_eq_cons.mpr ⟨hheight.symm, hp.marks⟩
    entered_falling := List.pairwise_cons.mpr ⟨fun n hn => h.fresh n (h.entered_mem n hn).1, h.entered_falling⟩
    entered_mem := List.forall_mem_cons.mpr ⟨⟨List.mem_cons_self, hnext⟩, hp.entered_mem⟩ }

/-- The frame taken off is the one entered exactly if the depth is its height. -/
theorem depth_eq_height_iff (h : Tells u w) {n m : Nat} {rest : List Nat} (hn : n ∈ w.serials)
    (hw : w.serials = m :: rest) : u.stack.depth = height w.serials n ↔ m = n := by
  have hle : ∀ k ∈ w.serials, k ≤ m := by
    have hfall := h.falling
    rw [hw] at hfall ⊢
    exact List.forall_mem_cons.mpr ⟨Nat.le_refl m, fun k hk => Nat.le_of_lt (List.rel_of_pairwise_cons hfall hk)⟩
  rw [← h.length_serials, eq_comm, height_eq_length_iff]
  refine ⟨fun hall => Nat.le_antisymm (hall m (hw ▸ List.mem_cons_self)) (hle n hn), ?_⟩
  rintro rfl
  exact hle

variable [DecidableEq κ]

theorem write (h : Tells u w) (pairs : List (κ × ν)) :
    ∃ w', w.write pairs = some w' ∧ Tells { u with stack := u.stack.insertAll pairs } w' := by
  obtain ⟨top, rest, htop, hwritten⟩ := u.stack.frames_insertAll pairs
  obtain ⟨⟨n, f⟩, frames, hw, rfl, rfl⟩ := List.map_eq_cons_iff.mp (h.frames.trans htop)
  have hserials : w.serials = n :: frames.map Prod.fst := congrArg (List.map Prod.fst) hw
  have hsame : KnownStack.serials { w with frames := (n, f.insertAll pairs) :: frames } = w.serials := hserials.symm
  refine ⟨{ w with frames := (n, f.insertAll pairs) :: frames }, by rw [KnownStack.write, hw], ?_⟩
  exact {
    frames := hwritten.symm
    marks := by rw [hsame]; exact h.marks
    falling := by rw [hsame]; exact h.falling
    entered_falling := h.entered_falling
    entered_mem := by rw [hsame]; exact h.entered_mem
    fresh := by rw [hsame]; exact h.fresh
    bottom := by rw [hsame]; exact h.bottom }

theorem leave (h : Tells u w) (inFlight : Option ε) {answer : StackAnswer ε} (hu : u.step (.leave inFlight) = some (answer, v)) :
    ∃ w', w.step (.leave inFlight) = some (answer, w') ∧ Tells v w' := by
  rcases w with ⟨_ | ⟨⟨m, f⟩, frames⟩, _ | ⟨n, entered⟩, next⟩
  · exact absurd h.bottom (by simp [KnownStack.serials])
  · exact absurd h.bottom (by simp [KnownStack.serials])
  · rw [StackUse.step, h.marks] at hu
    cases hu
  · obtain ⟨hmem, hpos⟩ := h.entered_mem n List.mem_cons_self
    have hle : n ≤ m := by
      rcases List.mem_cons.mp hmem with rfl | hlower
      · exact Nat.le_refl n
      · exact Nat.le_of_lt (List.rel_of_pairwise_cons h.falling hlower)
    -- the frames entered before are all below the topmost, so they lose nothing with it
    have hlower : ∀ k ∈ entered, k < m := fun k hk =>
      Nat.lt_of_lt_of_le (List.rel_of_pairwise_cons h.entered_falling hk) hle
    cases frames with
    | nil =>
      have hzero : m = 0 := Option.some.inj h.bottom
      omega
    | cons next' frames =>
      have hpop : u.stack.pop.frames = (next' :: frames).map Prod.snd := FrameStack.frames_pop h.frames.symm
      have hiff := h.depth_eq_height_iff hmem rfl
      rw [StackUse.step_leave h.marks] at hu
      obtain ⟨rfl, rfl⟩ := Prod.mk.inj (Option.some.inj hu)
      refine ⟨⟨next' :: frames, entered, next⟩, congrArg some (Prod.ext (if_congr hiff.symm rfl rfl) rfl), ?_⟩
      exact {
        frames := hpop.symm
        marks := map_height_cons hlower
        falling := h.falling.of_cons
        entered_falling := h.entered_falling.of_cons
        entered_mem := fun k hk => by
          obtain ⟨hk', hkpos⟩ := h.entered_mem k (List.mem_cons_of_mem n hk)
          exact ⟨List.mem_of_ne_of_mem (Nat.ne_of_lt (hlower k hk)) hk', hkpos⟩
        fresh := fun k hk => h.fresh k (List.mem_cons_of_mem m hk)
        bottom := h.bottom }

/-- The two stacks give the same answer to a step, and go on alike. -/
theorem step (h : Tells u w) {x : StackStep κ ν ε} {answer : StackAnswer ε} (hu : u.step x = some (answer, v)) :
    ∃ w', w.step x = some (answer, w') ∧ Tells v w' := by
  cases x with
  | insert k value =>
    cases hu
    obtain ⟨w', hw, ht⟩ := h.write [(k, value)]
    exact ⟨w', by rw [KnownStack.step, hw]; rfl, ht⟩
  | update pairs =>
    cases hu
    obtain ⟨w', hw, ht⟩ := h.write pairs
    exact ⟨w', by rw [KnownStack.step, hw]; rfl, ht⟩
  | enter f =>
    cases hu
    exact ⟨_, rfl, h.enter f⟩
  | leave inFlight => exact h.leave inFlight hu
  | append f =>
    cases hu
    exact ⟨_, rfl, h.push f⟩

theorem run (h : Tells u w) {xs : List (StackStep κ ν ε)} (hu : StackStep.run StackUse.step u xs = some v) :
    ∃ w', StackStep.run KnownStack.step w xs = some w' ∧ Tells v w' := by
  induction xs generalizing u w with
  | nil => cases hu; exact ⟨w, rfl, h⟩
  | cons x xs ih =>
    cases hx : u.step x with
    | none =>
      rw [StackStep.run, List.foldlM_cons, hx] at hu
      cases hu
    | some answered =>
      obtain ⟨answer, u'⟩ := answered
      obtain ⟨w', hw, ht⟩ := h.step hx
      rw [StackStep.run_cons hx] at hu
      obtain ⟨w'', hrun, hlast⟩ := ih ht hu
      exact ⟨w'', by rw [StackStep.run_cons hw, hrun], hlast⟩

end Tells

/-! ## The account of a stack -/

namespace StackUse

open StackStep (opened run isEnter isLeave isAppend)

variable {κ ν ε : Type} [DecidableEq κ]

/-- From any global frame, after any steps that leave no frame that is not entered, with
    `n` frames entered and not left: the depth counts the global frame, these and the
    others put on top. A name has the value that the topmost frame binding it has for it,
    whatever value that is. The same steps on frames known by their serials make the same
    frames and the same answers, with the global frame at the bottom. The frame to leave
    next is the one after whose entering (`since`) all others entered have been left:
    leaving it takes one frame off from above others and fails exactly if another frame
    was put on top since; if none was, the frames are those from before it was entered. -/
theorem frames_come_and_go (global : Frame κ ν) {steps : List (StackStep κ ν ε)} {n : Nat} (h : opened 0 steps = some n) :
    ∃ u, run step (.start global) steps = some u ∧
      steps.countP isEnter = steps.countP isLeave + n ∧
      u.stack.depth = 1 + n + steps.countP isAppend ∧
      (∀ k v, u.stack.get? k = some v ↔ u.stack.Shows k v) ∧
      (∃ w, run KnownStack.step (.start global) steps = some w ∧ w.frames.map Prod.snd = u.stack.frames ∧
        w.serials.getLast? = some 0 ∧
        ∀ (x : StackStep κ ν ε) answer v, u.step x = some (answer, v) → ∃ w', w.step x = some (answer, w')) ∧
      (0 < n → ∃ before f since, steps = before ++ .enter f :: since ∧ opened 0 since = some 0) ∧
      ∀ before f since, steps = before ++ .enter f :: since → opened 0 since = some 0 →
        ∃ base, run step (.start global) before = some base ∧
          ∀ inFlight : Option ε, ∃ answer top v, u.step (.leave inFlight) = some (answer, v) ∧
            u.stack.frames = top :: v.stack.frames ∧
            ((∃ fault, answer = .error fault ∧ fault.message? = some "environment frames popped out of order") ↔
              ∃ g, .append g ∈ since) ∧
            ((∀ g, .append g ∉ since) → answer = .ok inFlight ∧ v.stack.frames = base.stack.frames) := by
  obtain ⟨u, hu, hstands⟩ := (stands_start global).run h
  obtain ⟨-, above, hframes, habove⟩ := hstands
  obtain ⟨w, hw, htells⟩ := (Tells.start global).run hu
  refine ⟨u, hu, by rw [← StackStep.countP_isEnter h, Nat.zero_add], ?_, fun _ _ => FrameStack.get?_eq_some_iff,
    ⟨w, hw, htells.frames, htells.bottom, fun x answer v hx => ?_⟩, fun hn => ?_, fun before f since hsteps hsince => ?_⟩
  · rw [FrameStack.depth_eq_length, hframes, List.append_nil, habove]
    omega
  · obtain ⟨w', hw', -⟩ := htells.step hx
    exact ⟨w', hw'⟩
  · obtain ⟨before, f, since, hsteps, hsince⟩ := StackStep.exists_entered h (Nat.sub_lt hn Nat.one_pos)
    exact ⟨before, f, since, hsteps, by rw [hsince, Nat.sub_self]⟩
  · subst hsteps
    obtain ⟨base, hbase, hlast⟩ := stands_on_base h hsince hu
    refine ⟨base, hbase, fun inFlight => ?_⟩
    obtain ⟨top, v, hv, htop, hrestored⟩ := hlast.leave inFlight
    by_cases hzero : since.countP isAppend = 0
    · have hnone := StackStep.countP_isAppend_eq_zero_iff.mp hzero
      rw [if_pos hzero] at hv
      refine ⟨.ok inFlight, top, v, hv, htop, iff_of_false ?_ ?_, fun _ => ⟨rfl, hrestored hzero⟩⟩
      · rintro ⟨fault, herror, -⟩
        cases herror
      · rintro ⟨g, hg⟩
        exact hnone g hg
    · obtain ⟨g, hg⟩ := Classical.not_forall_not.mp (mt StackStep.countP_isAppend_eq_zero_iff.mpr hzero)
      rw [if_neg hzero] at hv
      exact ⟨.error .framesOutOfOrder, top, v, hv, htop, iff_of_true ⟨_, rfl, rfl⟩ ⟨g, hg⟩, fun hnone => absurd hg (hnone g)⟩

/-- A frame that binds a name to nothing hides what is below it; one put on top of it is
    left in its place, and it stays behind. -/
theorem frames_come_and_go_crossed :
    let steps : List (StackStep String (Option Nat) String) :=
      [.enter ⟨[("x", none)]⟩, .append ⟨[("y", some 2)]⟩, .enter .empty, .insert "z" none, .leave (some "boom")]
    opened 0 steps = some 1 ∧
      ∃ u, run step (.start ⟨[("x", some 1)]⟩) steps = some u ∧ u.stack.depth = 3 ∧ u.stack.get? "x" = some none ∧
        ∃ fault v, u.step (.leave (none : Option String)) = some (.error fault, v) ∧
          fault.message? = some "environment frames popped out of order" := by
  intro steps
  have hopened : opened 0 steps = some 1 := rfl
  obtain ⟨u, hu, -, hdepth, hget, -, -, hleave⟩ := frames_come_and_go ⟨[("x", some 1)]⟩ hopened
  have hshows : u.stack.Shows "x" none := by
    cases hu
    exact ⟨[⟨[("y", some 2)]⟩], ⟨[("x", none)]⟩, [⟨[("x", some 1)]⟩], rfl, rfl, by decide⟩
  obtain ⟨base, -, hnext⟩ := hleave [] ⟨[("x", none)]⟩ (steps.drop 1) rfl rfl
  obtain ⟨answer, top, v, hv, -, hfault, -⟩ := hnext none
  obtain ⟨fault, rfl, hmessage⟩ := hfault.mpr ⟨⟨[("y", some 2)]⟩, List.mem_cons_self⟩
  exact ⟨hopened, u, hu, hdepth, (hget "x" none).mpr hshows, fault, v, hv, hmessage⟩

end StackUse

end LineLisp
