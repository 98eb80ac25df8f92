/-
  LineLisp.CommandLine — a whole run of the program: the level of the log is set
  first, and a bad setting ends the run before anything is read; the records shown
  come before what else is on the error stream. Where records are shown they take stack.

  The level is the least one of a record that is shown. Its setting is a number in decimal
  digits of any script, or the name of a level in any case, with white space around it. A
  blank or missing setting and an unknown name mean `warning`. Digits of which one is no
  decimal digit make no number.
-/

import LineLisp.Console

namespace LineLisp

namespace LogLevel

def debug : Nat := 10

def warning : Nat := 30

def named : List (String × Nat) :=
  [("CRITICAL", 50), ("FATAL", 50), ("ERROR", 40), ("WARNING", warning), ("WARN", warning),
   ("INFO", 20), ("DEBUG", debug), ("NOTSET", 0)]

/-- The number that digits of any script are written for. -/
def numberOf (cs : List Char) : Nat :=
  cs.foldl (fun n c => 10 * n + (Text.decimalValue? c).getD 0) 0

/-- How many characters of a refused setting are quoted, the quote included. -/
def quoteLimit : Nat := 200

/-- The level of a setting of digits. -/
def ofDigits (cs : List Char) : Except Fault Nat :=
  let leading := cs.takeWhile fun c => (Text.decimalValue? c).isSome
  if leading.length > maxDigits then .error (.tooManyDigits leading.length)
  else if leading.length = cs.length then .ok (numberOf cs)
  else .error (.invalidLevel (String.ofList ((Text.quoted cs).take quoteLimit)))

def ofSetting (setting : Option String) : Except Fault Nat :=
  match Text.trim (setting.getD "").toList with
  | [] => .ok warning
  | cs =>
    if cs.all Text.isDigit then ofDigits cs
    else .ok ((named.lookup (String.ofList (Text.upper cs))).getD warning)

end LogLevel

namespace CommandLine

/-- The setting that the level of the log is read from. -/
def levelVariable : String := "SPANLISP_LOG_LEVEL"

/-- The records that a threshold lets through. -/
def shown (threshold : Nat) (log : List LogEvent) : List LogEvent :=
  if threshold ≤ LogLevel.debug then log else []

/-- The units of stack that it takes to show a record. -/
def shownCost : Nat := 13

/-- A host without functions of its own, where records are shown from a threshold on. -/
def host (threshold : Nat) : Host := ⟨Hosts.none, if threshold ≤ LogLevel.debug then shownCost else 0⟩

def run (mode : Mode) (setting : Option String) (input : List Char) : Except Fault Transcript :=
  (LogLevel.ofSetting setting).map fun threshold =>
    let t := Console.runIn (host threshold) .none mode Console.prompt .fresh (InputLine.ofText input)
    let records := (shown threshold t.session.log.toList).map (·.line.toList)
    { t with stderr := records.flatten ++ t.stderr }

end CommandLine

end LineLisp
