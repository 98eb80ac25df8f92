/-
  LineLisp.Function.Call — calling a function on values.

  A call has a value, has none (the arguments do not suit the function), runs out of
  stack, or ends in a fault. A built-in on integers has a value only if all its arguments
  are integers, and only in the 64-bit range: a sum is checked at its end, differences,
  products and quotients after every argument. Comparing and printing go into vectors: a
  comparison needs three units of stack for every level it compares, printing one.
-/

import LineLisp.Value

namespace LineLisp

inductive Reply
  | value (v : Value)
  | noValue
  | exhausted
  | fault (f : Fault)

/-- What the host functions do, by their serial numbers. -/
abbrev Hosts := Nat → List Value → Reply

/-- No host functions. -/
def Hosts.none : Hosts := fun _ _ => .noValue

/-- The program around a session: the functions that it adds, and how many units of stack it
    needs to write a record. -/
structure Host where
  functions : Hosts
  recordCost : Nat

/-- A program that writes no records, so that they need no stack. -/
instance : Coe Hosts Host := ⟨fun functions => ⟨functions, 0⟩⟩

def Reply.ofOption : Option Value → Reply
  | some v => .value v
  | none => .noValue

namespace Builtin

/-! ### Integers -/

/-- The arguments as numbers, if all are. A boolean is no number. -/
def integers? (args : List Value) : Option (List Int) :=
  args.mapM fun v => match v with
    | .int n => some n
    | _ => none

/-- Combining the first number with the others, one after another. -/
def combine (op : Int → Int → Option Int) : List Int → Option Int
  | [] => none
  | n :: ns => ns.foldlM op n

def addNumbers (ns : List Int) : Option Int := checkWord (ns.foldl (· + ·) 0)

def subNumbers : List Int → Option Int
  | [n] => checkWord (-n)
  | ns => combine (fun a b => checkWord (a - b)) ns

def mulNumbers (ns : List Int) : Option Int := combine (fun a b => checkWord (a * b)) (1 :: ns)

/-- The quotient rounded toward zero; there is none by zero. -/
def quotient (a b : Int) : Option Int := if b = 0 then none else checkWord (a.tdiv b)

def divNumbers (ns : List Int) : Option Int := if ns.length < 2 then none else combine quotient ns

/-- The remainder with the sign of the divisor; there is none by zero. -/
def modNumbers : List Int → Option Int
  | [a, b] => if b = 0 then none else some (a.fmod b)
  | _ => none

/-- Whether every number stands in the relation to the next. There must be a number. -/
def chain (rel : Int → Int → Bool) (ns : List Int) : Option Bool :=
  if ns.isEmpty then none else some ((ns.zip ns.tail).all fun p => rel p.1 p.2)

/-- A built-in on numbers as one on values. -/
def onIntegers (f : List Int → Option Int) (args : List Value) : Option Value :=
  ((integers? args).bind f).map .int

def onComparison (rel : Int → Int → Bool) (args : List Value) : Option Value :=
  ((integers? args).bind (chain rel)).map .bool

/-! ### Values -/
/-- Whether all arguments equal the first; there must be one. -/
def equals : List Value → Option Bool
  | [] => none
  | v :: vs => some (vs.all v.isEqual)

/-- How deep `equals` compares: it stops at the first argument that differs. -/
def equalsLevels : List Value → Nat
  | [] => 0
  | v :: vs => go v vs
where
  go (v : Value) : List Value → Nat
    | [] => 0
    | w :: ws =>
      if v.isEqual w then max (v.comparedLevels w) (go v ws) else v.comparedLevels w

def negated : List Value → Option Value
  | [v] => some (.bool !v.isTruthy)
  | _ => none

/-- The number of characters or of items, as an integer. -/
def countOf : List Value → Option Value
  | [.str text] => (checkWord text.width).map .int
  | [.vector items] => (checkWord items.length).map .int
  | _ => none

def concatenated (names : NameTable) (args : List Value) : Reply :=
  match Value.displayEach names args with
  | .ok parts => .value (.str parts.flatten)
  | .error f => .fault f

/-- The units of stack a call needs beyond its own. -/
def stackNeed (b : Builtin) (args : List Value) : Nat :=
  match b with
  | equal | notEqual => 3 * equalsLevels args
  | str => Value.nestingEach args
  | _ => 0

/-- What a built-in answers, given stack enough, and the names after it. -/
def run (names : NameTable) (args : List Value) : Builtin → Reply × NameTable
  | add => (.ofOption (onIntegers addNumbers args), names)
  | sub => (.ofOption (onIntegers subNumbers args), names)
  | mul => (.ofOption (onIntegers mulNumbers args), names)
  | div => (.ofOption (onIntegers divNumbers args), names)
  | mod => (.ofOption (onIntegers modNumbers args), names)
  | equal => (.ofOption ((equals args).map .bool), names)
  | notEqual => (.ofOption ((equals args).map fun b => .bool !b), names)
  | less => (.ofOption (onComparison (· < ·) args), names)
  | lessEqual => (.ofOption (onComparison (· ≤ ·) args), names)
  | greater => (.ofOption (onComparison (· > ·) args), names)
  | greaterEqual => (.ofOption (onComparison (· ≥ ·) args), names)
  | not => (.ofOption (negated args), names)
  | vector => (.value (.vector args), names)
  | count => (.ofOption (countOf args), names)
  | str => (concatenated names args, names)
  | keyword =>
    match args with
    | [.str text] =>
      let (name, names) := names.intern text
      (.value (.keyword name), names)
    | _ => (.noValue, names)

end Builtin

/-- What a function answers with `budget` units of stack left, and the names after it. -/
def Function.call (hosts : Hosts) (budget : Nat) (names : NameTable) (args : List Value) :
    Function → Reply × NameTable
  | builtin b => if b.stackNeed args > budget then (.exhausted, names) else b.run names args
  | host serial _ => (hosts serial args, names)

end LineLisp
