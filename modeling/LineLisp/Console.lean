/-
  LineLisp.Console — the line loop: prompt, read a line, answer it, until the input
  ends.

  One turn of the loop is the same for every program it is run in (`Streams.turn`). A line
  is answered without the line end it was read with; a blank line is passed over. In a run
  on streams that can fail the n-th write, flush or read raises an error, or the
  output cannot encode a character. Then the loop ends with exit code 1 and the
  error's message on the error stream, and the output holds what was written before,
  in whole writes. At the end of input the exit code is 0. A fault of the session is
  not caught.
-/

import LineLisp.Answer
import LineLisp.Text

namespace LineLisp

/-- What one read gives. -/
inductive InputLine
  | text (line : List Char)
  /-- Bytes that are no text. -/
  | undecodable
  deriving DecidableEq

namespace InputLine

/-- The lines of a text, ended by line feeds only. -/
def ofText (text : List Char) : List InputLine := (Text.splitLines text).map .text

/-- The lines of bytes in UTF-8, with any kind of line end. -/
def ofBytes (bytes : ByteArray) : List InputLine :=
  match String.fromUTF8? bytes with
  | some s => ofText (Text.unifyNewlines s.toList)
  | none => [.undecodable]

end InputLine

/-! ## A turn of the loop -/

/-- What a turn of the loop needs of the program it is run in. -/
structure Streams (m : Type → Type) where
  write : List Char → m Unit
  flush : m Unit
  session : m Session
  setSession : Session → m Unit
  /-- Ends the program with a fault. -/
  escape : Fault → m Unit

/-- The session's answer to a line as it was read; a blank line has none. -/
def Session.respond (host : Host) (mode : Mode) (s : Session) (line : List Char) :
    Option (Except Fault (List Char) × Session) :=
  let line := Text.chomp line
  if Text.isBlankLine line then none else some (s.answer host mode line)

namespace Streams

variable {m : Type → Type} [Monad m]

/-- Prompts and reads. -/
def ask (io : Streams m) (prompt : List Char) (read : m (Option (List Char))) : m (Option (List Char)) := do
  io.write prompt
  io.flush
  read

/-- Answers a line. -/
def reply (io : Streams m) (host : Host) (mode : Mode) (line : List Char) : m Unit := do
  match (← io.session).respond host mode line with
  | none => return
  | some (answer, s) =>
    io.setSession s
    match answer with
    | .ok text => io.write text
    | .error f => io.escape f

/-- Asks for a line and answers it; whether there was one. -/
def turn (io : Streams m) (host : Host) (mode : Mode) (prompt : List Char) (read : m (Option (List Char))) : m Bool := do
  match ← io.ask prompt read with
  | none => return false
  | some line =>
    io.reply host mode line
    return true

end Streams

/-! ## Runs on streams that can fail -/

/-- How the streams fail, if they do; operations are counted from 1. -/
structure StreamFaults where
  write : Option Nat
  flush : Option Nat
  read : Option Nat
  message : String
  /-- The error stream fails too. -/
  errorStream : Bool
  /-- The output can encode ASCII only. -/
  asciiOnly : Bool
  deriving DecidableEq

/-- Streams that never fail. -/
def StreamFaults.none : StreamFaults := ⟨.none, .none, .none, "", false, false⟩

/-- What ends the loop before the input does. -/
inductive Halt
  | failed (message : String)
  | escaped (f : Fault)

structure Console where
  session : Session
  /-- What was written, one item a write. -/
  written : Array (List Char)
  writes : Nat
  flushes : Nat
  reads : Nat

abbrev ConsoleM := ExceptT Halt (StateM Console)

/-- How a run ended: its exit code, unless a fault escaped, and what it left. -/
structure Transcript where
  outcome : Except Fault Nat
  stdout : List Char
  stderr : List Char
  session : Session

namespace Console

def prompt : List Char := ['>', ' ']

def encodeError : String := "<encode error>"

def decodeError : String := "<decode error>"

def start (s : Session) : Console := ⟨s, #[], 0, 0, 0⟩

def isAscii (c : Char) : Bool := c.toNat < 0x80

def write (faults : StreamFaults) (chunk : List Char) : ConsoleM Unit := do
  modify fun c => { c with writes := c.writes + 1 }
  if faults.write = some (← get).writes then throw (.failed faults.message)
  if faults.asciiOnly && !chunk.all isAscii then throw (.failed encodeError)
  modify fun c => { c with written := c.written.push chunk }

def flush (faults : StreamFaults) : ConsoleM Unit := do
  modify fun c => { c with flushes := c.flushes + 1 }
  if faults.flush = some (← get).flushes then throw (.failed faults.message)

/-- One read, of a line or of the end of the input. -/
def readNext (faults : StreamFaults) (line : Option InputLine) : ConsoleM (Option (List Char)) := do
  modify fun c => { c with reads := c.reads + 1 }
  if faults.read = some (← get).reads then throw (.failed faults.message)
  match line with
  | none => return none
  | some (.text line) => return some line
  | some .undecodable => throw (.failed decodeError)

/-- A run as it is seen by one turn of the loop. -/
def streams (faults : StreamFaults) : Streams ConsoleM where
  write := write faults
  flush := flush faults
  session := return (← get).session
  setSession s := modify fun c => { c with session := s }
  escape f := throw (.escaped f)

/-- One turn after another, for the lines of an input and for its end. -/
def loop (host : Host) (faults : StreamFaults) (mode : Mode) (prompt : List Char) : List InputLine → ConsoleM Unit
  | [] => discard ((streams faults).turn host mode prompt (readNext faults none))
  | line :: rest => do
    discard ((streams faults).turn host mode prompt (readNext faults (some line)))
    loop host faults mode prompt rest

def finish (faults : StreamFaults) : Except Halt Unit × Console → Transcript
  | (.ok (), c) => ⟨.ok 0, c.written.toList.flatten, [], c.session⟩
  | (.error (.failed message), c) =>
    let stderr := if faults.errorStream then [] else message.toList ++ ['\n']
    ⟨.ok 1, c.written.toList.flatten, stderr, c.session⟩
  | (.error (.escaped f), c) => ⟨.error f, c.written.toList.flatten, [], c.session⟩

/-- Runs the loop on the lines of an input. -/
def runIn (host : Host) (faults : StreamFaults) (mode : Mode) (prompt : List Char) (s : Session)
    (lines : List InputLine) : Transcript :=
  finish faults (loop host faults mode prompt lines (start s))

/-- Runs the loop where records take no stack. -/
def run (faults : StreamFaults) (mode : Mode) (prompt : List Char) (s : Session) (lines : List InputLine) : Transcript :=
  runIn Hosts.none faults mode prompt s lines

end Console

end LineLisp
