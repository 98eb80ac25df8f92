/-
  LineLisp.FrameStack — bindings in a stack of frames. The bottom frame is never
  left; a name means what the topmost frame that binds it says.

  Entering a frame gives a mark, the depth reached. Leaving takes the topmost frame
  off, whatever it is, and tells whether it was the frame of the mark; it was,
  exactly if the depth is still the mark's, for frames come and go at the top only.
-/

namespace LineLisp

/-- Bindings in the order their names came, each name once. -/
structure Frame (κ ν : Type) where
  entries : List (κ × ν)

namespace Frame

variable {κ ν : Type} [DecidableEq κ]

def empty : Frame κ ν := ⟨[]⟩

def size (f : Frame κ ν) : Nat := f.entries.length

def get? (f : Frame κ ν) (k : κ) : Option ν := f.entries.lookup k

def contains (f : Frame κ ν) (k : κ) : Bool := (f.get? k).isSome

/-- The bindings with one put in the place of the name's own, or at the end. -/
def insertEntry (k : κ) (v : ν) : List (κ × ν) → List (κ × ν)
  | [] => [(k, v)]
  | (j, w) :: rest => if j = k then (k, v) :: rest else (j, w) :: insertEntry k v rest

def insert (f : Frame κ ν) (k : κ) (v : ν) : Frame κ ν := ⟨insertEntry k v f.entries⟩

def insertAll (f : Frame κ ν) (pairs : List (κ × ν)) : Frame κ ν :=
  pairs.foldl (fun f p => f.insert p.1 p.2) f

def ofList (pairs : List (κ × ν)) : Frame κ ν := insertAll empty pairs

theorem get?_empty (k : κ) : (empty : Frame κ ν).get? k = none := rfl

theorem get?_cons (j : κ) (v : ν) (es : List (κ × ν)) (k : κ) :
    (⟨(j, v) :: es⟩ : Frame κ ν).get? k = if k = j then some v else (⟨es⟩ : Frame κ ν).get? k := by
  simp only [get?, List.lookup_cons]
  by_cases h : k = j
  · rw [beq_iff_eq.mpr h, if_pos h]
  · rw [beq_false_of_ne h, if_neg h]

theorem get?_insert (f : Frame κ ν) (k : κ) (v : ν) (j : κ) :
    (f.insert k v).get? j = if j = k then some v else f.get? j := by
  rcases f with ⟨es⟩
  simp only [insert]
  induction es with
  | nil => rw [insertEntry, get?_cons]
  | cons e es ih =>
    rcases e with ⟨i, w⟩
    rw [insertEntry]
    by_cases hi : i = k
    · rw [if_pos hi, get?_cons, get?_cons, hi]
      by_cases h : j = k <;> simp [h]
    · rw [if_neg hi, get?_cons, get?_cons, ih]
      by_cases h : j = i
      · subst h; simp [hi]
      · simp [h]

end Frame

structure FrameStack (κ ν : Type) where
  bottom : Frame κ ν
  /-- The other frames, the topmost first. -/
  upper : List (Frame κ ν)

namespace FrameStack

variable {κ ν : Type}

def ofFrame (f : Frame κ ν) : FrameStack κ ν := ⟨f, []⟩

/-- All frames, the topmost first. -/
def frames (s : FrameStack κ ν) : List (Frame κ ν) := s.upper ++ [s.bottom]

def depth (s : FrameStack κ ν) : Nat := s.upper.length + 1

/-- Puts a frame on top. -/
def push (s : FrameStack κ ν) (f : Frame κ ν) : FrameStack κ ν := { s with upper := f :: s.upper }

/-- Takes the topmost frame off, the bottom one excepted. -/
def pop (s : FrameStack κ ν) : FrameStack κ ν := { s with upper := s.upper.tail }

/-- Puts a frame on top and marks it. -/
def enter (s : FrameStack κ ν) (f : Frame κ ν) : Nat × FrameStack κ ν :=
  ((s.push f).depth, s.push f)

/-- Takes the topmost frame off; whether it was the marked one. -/
def leave (s : FrameStack κ ν) (mark : Nat) : Bool × FrameStack κ ν := (s.depth == mark, s.pop)

theorem depth_push (s : FrameStack κ ν) (f : Frame κ ν) : (s.push f).depth = s.depth + 1 := rfl

theorem pop_push (s : FrameStack κ ν) (f : Frame κ ν) : (s.push f).pop = s := rfl

variable [DecidableEq κ]

def get? (s : FrameStack κ ν) (k : κ) : Option ν := s.frames.findSome? (·.get? k)

/-- Binds a name in the topmost frame. -/
def insert (s : FrameStack κ ν) (k : κ) (v : ν) : FrameStack κ ν :=
  match s.upper with
  | [] => { s with bottom := s.bottom.insert k v }
  | f :: rest => { s with upper := f.insert k v :: rest }

def insertAll (s : FrameStack κ ν) (pairs : List (κ × ν)) : FrameStack κ ν :=
  pairs.foldl (fun s p => s.insert p.1 p.2) s

theorem depth_insert (s : FrameStack κ ν) (k : κ) (v : ν) : (s.insert k v).depth = s.depth := by
  unfold insert depth; split <;> simp_all

theorem get?_push (s : FrameStack κ ν) (f : Frame κ ν) (k : κ) :
    (s.push f).get? k = (f.get? k).or (s.get? k) := by
  simp only [get?, push, frames, List.cons_append, List.findSome?_cons]
  cases f.get? k <;> rfl

theorem get?_insert (s : FrameStack κ ν) (k : κ) (v : ν) (j : κ) :
    (s.insert k v).get? j = if j = k then some v else s.get? j := by
  rcases s with ⟨bottom, upper⟩
  cases upper with
  | nil => simp [get?, insert, frames, Frame.get?_insert]
  | cons f rest =>
    simp only [get?, insert, frames, List.cons_append, List.findSome?_cons, Frame.get?_insert]
    by_cases h : j = k <;> simp [h]

end FrameStack

end LineLisp
