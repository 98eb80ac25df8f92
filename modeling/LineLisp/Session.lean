/-
  LineLisp.Session — what lasts from one line to the next: the frames, the names and
  the log. A record is made after what it tells of: of a name when the table has grown by
  it, of a frame when it has come and when it has gone. Making it can fail, and then what it
  tells of has happened all the same; so the operations that something can follow come
  without their records, `Session.setTable` and `Session.enter`.
-/

import LineLisp.Error
import LineLisp.FrameStack
import LineLisp.Function.Call

namespace LineLisp

/-! ## Records

Names interned, frames entered and left, definitions made, lines that failed. All records
have the level `debug`. -/

inductive LogEvent
  | interned (text : Glyphs) (name : Name)
  /-- With the depth after it, as below. -/
  | pushed (depth : Nat)
  | popped (depth : Nat)
  | defined (spelling : List Char) (depth : Nat)
  | readFailed (kind : ErrorKind) (span : Span)
  | evalFailed (kind : ErrorKind) (span : Span)
  deriving DecidableEq

namespace LogEvent

def logger : LogEvent → String
  | interned _ _ => "spanlisp.util.interner"
  | pushed _ | popped _ => "spanlisp.types.environment"
  | defined _ _ => "spanlisp.evaluation.special_forms.def_form"
  | readFailed _ _ | evalFailed _ _ => "spanlisp.interpreter"

def message : LogEvent → String
  | interned text name =>
    "interned " ++ String.ofList (Text.quoted text.shown) ++ " as " ++ toString name
  | pushed depth => "pushed frame, depth " ++ toString depth
  | popped depth => "popped frame, depth " ++ toString depth
  | defined spelling depth => "def " ++ String.ofList spelling ++ " at depth " ++ toString depth
  | readFailed kind span => "read error " ++ kind.name ++ " at " ++ span.text
  | evalFailed kind span => "eval error " ++ kind.name ++ " at " ++ span.text

def line (e : LogEvent) : String := "DEBUG " ++ e.logger ++ ": " ++ e.message ++ "\n"

end LogEvent

/-! ## Sessions -/

/-- The records of the names that a table has and another, which it has grown from, has not. -/
def NameTable.newRecords (old new : NameTable) : List LogEvent :=
  (new.texts.zipIdx.drop old.size).map fun p => .interned p.1 p.2

structure Session where
  frames : FrameStack Name Value
  names : NameTable
  log : Array LogEvent

namespace Session

def empty : Session := ⟨.ofFrame .empty, .empty, #[]⟩

def depth (s : Session) : Nat := s.frames.depth

/-- The value a name is bound to. -/
def get? (s : Session) (name : Name) : Option Value := s.frames.get? name

def note (s : Session) (e : LogEvent) : Session := { s with log := s.log.push e }

/-- Takes over a table that the session's own has grown into. -/
def setTable (s : Session) (names : NameTable) : Session := { s with names := names }

/-- Takes over a table that the session's own has grown into, and records the new names. -/
def setNames (s : Session) (names : NameTable) : Session :=
  { s with names := names, log := s.log ++ s.names.newRecords names }

def intern (s : Session) (text : Glyphs) : Name × Session :=
  let (name, names) := s.names.intern text
  (name, s.setNames names)

/-- Binds a name in the topmost frame. -/
def bind (s : Session) (name : Name) (v : Value) : Session :=
  { s with frames := s.frames.insert name v }

/-- Puts an empty frame on top and marks it. -/
def enter (s : Session) : Nat × Session :=
  let (mark, frames) := s.frames.enter .empty
  (mark, { s with frames := frames })

/-- Takes the topmost frame off, and records that if it was the marked one; whether it was. -/
def leave (s : Session) (mark : Nat) : Bool × Session :=
  match s.frames.leave mark with
  | (true, frames) => (true, { s with frames := frames }.note (.popped frames.depth))
  | (false, frames) => (false, { s with frames := frames })

/-- Binds a built-in to its name. -/
def register (s : Session) (b : Builtin) : Session :=
  let (name, s) := s.intern (.ofString b.name)
  s.bind name (.function (.builtin b))

/-- A session at its start, with all built-ins bound. -/
def fresh : Session := Builtin.all.foldl register empty

/-! ## What the operations change -/

@[simp] theorem frames_note (s : Session) (e : LogEvent) : (s.note e).frames = s.frames := rfl

@[simp] theorem names_note (s : Session) (e : LogEvent) : (s.note e).names = s.names := rfl

@[simp] theorem frames_setTable (s : Session) (t : NameTable) : (s.setTable t).frames = s.frames := rfl

@[simp] theorem names_setTable (s : Session) (t : NameTable) : (s.setTable t).names = t := rfl

@[simp] theorem frames_setNames (s : Session) (t : NameTable) : (s.setNames t).frames = s.frames := rfl

@[simp] theorem names_setNames (s : Session) (t : NameTable) : (s.setNames t).names = t := rfl

@[simp] theorem frames_intern (s : Session) (text : Glyphs) : (s.intern text).2.frames = s.frames := rfl

@[simp] theorem names_intern (s : Session) (text : Glyphs) :
    (s.intern text).2.names = (s.names.intern text).2 := rfl

@[simp] theorem names_bind (s : Session) (name : Name) (v : Value) :
    (s.bind name v).names = s.names := rfl

@[simp] theorem frames_enter (s : Session) : s.enter.2.frames = s.frames.push .empty := rfl

@[simp] theorem names_enter (s : Session) : s.enter.2.names = s.names := rfl

theorem frames_leave (s : Session) (mark : Nat) : (s.leave mark).2.frames = s.frames.pop := by
  unfold leave FrameStack.leave
  cases s.frames.depth == mark <;> rfl

theorem names_leave (s : Session) (mark : Nat) : (s.leave mark).2.names = s.names := by
  unfold leave FrameStack.leave
  cases s.frames.depth == mark <;> rfl

theorem fst_leave (s : Session) (mark : Nat) : (s.leave mark).1 = (s.depth == mark) := by
  unfold leave FrameStack.leave depth
  cases s.frames.depth == mark <;> rfl

theorem depth_bind (s : Session) (name : Name) (v : Value) : (s.bind name v).depth = s.depth :=
  FrameStack.depth_insert s.frames name v

theorem get?_bind (s : Session) (name : Name) (v : Value) (other : Name) :
    (s.bind name v).get? other = if other = name then some v else s.get? other :=
  FrameStack.get?_insert s.frames name v other

end Session

end LineLisp
