/-
  LineLisp.Proofs.Spelled.Value — values whose keywords are their texts, and the
  built-ins on them.

  A function is the built-in it is; there are no others, and nothing of a host
  program. So every value can be printed, equal values are the same value, and a
  built-in is a function of its arguments alone, which has a value or has none.
-/

import LineLisp.Function.Call

namespace LineLisp.Spelled

inductive Value
  | nil
  | bool (b : Bool)
  | int (n : Int)
  | str (text : Glyphs)
  | keyword (text : Glyphs)
  | vector (items : List Value)
  | function (b : Builtin)

namespace Value

def isTruthy : Value → Bool
  | nil | bool false => false
  | _ => true

mutual

def display : Value → Glyphs
  | nil => .ofString "nil"
  | bool b => .ofString (if b then "true" else "false")
  | int n => .ofString (toString n)
  | str text => text
  | keyword text => .char ':' :: text
  | vector items => .char '[' :: (List.intercalate [.char ' '] (displayEach items) ++ [.char ']'])
  | function b => [.function (.builtin b)]

def displayEach : List Value → List Glyphs
  | [] => []
  | v :: vs => v.display :: displayEach vs

end

mutual

/-- How many vectors deep the value goes. -/
def nesting : Value → Nat
  | vector items => nestingEach items + 1
  | _ => 0

def nestingEach : List Value → Nat
  | [] => 0
  | v :: vs => max v.nesting (nestingEach vs)

end

/-- The printed form of a value, within the limit. -/
def show? (v : Value) : Except Fault Glyphs :=
  if v.nesting > LineLisp.Value.showLimit then .error .stackExhausted else .ok v.display

mutual

def isEqual : Value → Value → Bool
  | nil, nil => true
  | bool a, bool b => a == b
  | int a, int b => a == b
  | str a, str b => a == b
  | keyword a, keyword b => a == b
  | vector as, vector bs => areEqual as bs
  | function a, function b => a == b
  | _, _ => false

def areEqual : List Value → List Value → Bool
  | [], [] => true
  | a :: as, b :: bs => a.isEqual b && areEqual as bs
  | _, _ => false

end

mutual

/-- How deep in vectors a comparison goes that stops at the first difference. -/
def comparedLevels : Value → Value → Nat
  | vector as, vector bs => if as.length = bs.length then comparedEach as bs + 1 else 1
  | _, _ => 0

def comparedEach : List Value → List Value → Nat
  | a :: as, b :: bs =>
    if a.isEqual b then max (a.comparedLevels b) (comparedEach as bs) else a.comparedLevels b
  | _, _ => 0

end

end Value

/-! ## Built-ins -/

def integers? (args : List Value) : Option (List Int) :=
  args.mapM fun v => match v with
    | .int n => some n
    | _ => none

def onIntegers (f : List Int → Option Int) (args : List Value) : Option Value :=
  ((integers? args).bind f).map .int

def onComparison (rel : Int → Int → Bool) (args : List Value) : Option Value :=
  ((integers? args).bind (Builtin.chain rel)).map .bool

/-- Whether all arguments equal the first; there must be one. -/
def equals : List Value → Option Bool
  | [] => none
  | v :: vs => some (vs.all v.isEqual)

/-- How deep the arguments after the first are compared with it. -/
def levelsAgainst (v : Value) : List Value → Nat
  | [] => 0
  | w :: ws => if v.isEqual w then max (v.comparedLevels w) (levelsAgainst v ws) else v.comparedLevels w

def equalsLevels : List Value → Nat
  | [] => 0
  | v :: vs => levelsAgainst v vs

def negated : List Value → Option Value
  | [v] => some (.bool !v.isTruthy)
  | _ => none

def countOf : List Value → Option Value
  | [.str text] => (checkWord text.width).map .int
  | [.vector items] => (checkWord items.length).map .int
  | _ => none

def keywordOf : List Value → Option Value
  | [.str text] => some (.keyword text)
  | _ => none

/-- The units of stack a call needs beyond its own. -/
def stackNeed (args : List Value) : Builtin → Nat
  | .equal | .notEqual => 3 * equalsLevels args
  | .str => Value.nestingEach args
  | _ => 0

/-- The value of a built-in, given stack enough. -/
def resultOf (args : List Value) : Builtin → Option Value
  | .add => onIntegers Builtin.addNumbers args
  | .sub => onIntegers Builtin.subNumbers args
  | .mul => onIntegers Builtin.mulNumbers args
  | .div => onIntegers Builtin.divNumbers args
  | .mod => onIntegers Builtin.modNumbers args
  | .equal => (equals args).map .bool
  | .notEqual => (equals args).map fun b => .bool !b
  | .less => onComparison (· < ·) args
  | .lessEqual => onComparison (· ≤ ·) args
  | .greater => onComparison (· > ·) args
  | .greaterEqual => onComparison (· ≥ ·) args
  | .not => negated args
  | .vector => some (.vector args)
  | .count => countOf args
  | .str => some (.str (Value.displayEach args).flatten)
  | .keyword => keywordOf args

end LineLisp.Spelled
