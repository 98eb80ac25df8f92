/-
  LineLisp.FrameStack.Use — a stack in the hands of a program: what can be done to it,
  and what comes of that. Whoever enters a frame keeps its mark until the frame is left,
  and frames are left in the opposite order. A frame may also be put on top behind their
  backs; then the frame taken off at the next leaving is not the one entered.
-/

import LineLisp.Fault
import LineLisp.FrameStack

namespace LineLisp

/-- What can be done to a stack. An error on its way out of a frame is of the type `ε`. -/
inductive StackStep (κ ν ε : Type)
  | insert (k : κ) (v : ν)
  | update (pairs : List (κ × ν))
  /-- Enters a frame. -/
  | enter (f : Frame κ ν)
  /-- Leaves the frame entered last, at its end or with an error in flight. -/
  | leave (inFlight : Option ε)
  /-- Puts a frame on top that is not entered. -/
  | append (f : Frame κ ν)

/-- What comes of a step: the error that was in flight, if any, or a fault of its own. -/
abbrev StackAnswer (ε : Type) := Except Fault (Option ε)

/-- A stack, and the marks of the frames entered and not left, the latest first. -/
structure StackUse (κ ν : Type) where
  stack : FrameStack κ ν
  marks : List Nat

namespace StackUse

variable {κ ν ε : Type}

def start (global : Frame κ ν) : StackUse κ ν := ⟨.ofFrame global, []⟩

variable [DecidableEq κ]

/-- Takes a step, if that can be taken: without a frame entered there is none to leave. -/
def step (u : StackUse κ ν) : StackStep κ ν ε → Option (StackAnswer ε × StackUse κ ν)
  | .insert k v => some (.ok none, { u with stack := u.stack.insert k v })
  | .update pairs => some (.ok none, { u with stack := u.stack.insertAll pairs })
  | .enter f =>
    let (mark, stack) := u.stack.enter f
    some (.ok none, ⟨stack, mark :: u.marks⟩)
  | .leave inFlight =>
    match u.marks with
    | [] => none
    | mark :: marks =>
      let (inOrder, stack) := u.stack.leave mark
      some (if inOrder then .ok inFlight else .error .framesOutOfOrder, ⟨stack, marks⟩)
  | .append f => some (.ok none, { u with stack := u.stack.push f })

end StackUse

end LineLisp
