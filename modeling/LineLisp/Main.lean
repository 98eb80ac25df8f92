/-
  LineLisp.Main — the program on the process's own streams. With `step1` as its first
  argument it answers each line with its canonical text; without, it evaluates it.
-/

import LineLisp.CommandLine

namespace LineLisp.CommandLine

/-- What a fault that ends the program is reported as. -/
def faultReport (f : Fault) : String := f.message?.getD "out of stack"

/-- Takes over a session and shows the records that it has more than the last. -/
def showRecords (threshold : Nat) (s : Session) : StateT Session IO Unit := do
  for e in shown threshold (s.log.toList.drop (← get).log.size) do
    IO.eprint e.line
  set s

/-- The program as it is seen by one turn of the loop. -/
def streams (threshold : Nat) : Streams (StateT Session IO) where
  write chunk := do (← IO.getStdout).putStr (String.ofList chunk)
  flush := do (← IO.getStdout).flush
  session := get
  setSession := showRecords threshold
  escape f := throw (IO.userError (faultReport f))

/-- The next line of the input, if there is one. -/
def readLine : StateT Session IO (Option (List Char)) := do
  let line ← (← IO.getStdin).getLine
  return if line.isEmpty then none else some line.toList

/-- One turn after another, until the input ends. -/
partial def serve (mode : Mode) (threshold : Nat) : StateT Session IO Unit := do
  if ← (streams threshold).turn (host threshold) mode Console.prompt readLine then serve mode threshold

/-- The whole of the program's run; the records of the fresh session come first. -/
def start (mode : Mode) (threshold : Nat) : IO Unit :=
  (do showRecords threshold .fresh; serve mode threshold : StateT Session IO Unit).run' .empty

end LineLisp.CommandLine

open LineLisp in
def main (args : List String) : IO UInt32 := do
  let mode : Mode := if args.head? = some "step1" then .read else .eval
  match LogLevel.ofSetting (← IO.getEnv CommandLine.levelVariable) with
  | .error f =>
    IO.eprintln (CommandLine.faultReport f)
    return 1
  | .ok threshold =>
    try
      CommandLine.start mode threshold
      return 0
    catch e =>
      IO.eprintln (toString e)
      return 1
