/-
  LineLisp.Value — values, how they are printed and when they are equal.

  Strings print as they are, without quotes; vectors with brackets and single spaces;
  a function as its own mark. A keyword prints by its name, so it needs the table that
  gave the name out. Equal values are of the same kind and have the same content, item
  by item in vectors; `comparedLevels` says how deep in vectors a comparison goes when it
  stops at the first difference.
-/

import LineLisp.Fault

namespace LineLisp

inductive Value
  | nil
  | bool (b : Bool)
  | int (n : Int)
  | str (text : Glyphs)
  | keyword (name : Name)
  | vector (items : List Value)
  | function (f : Function)
  /-- A thing of the host program that stands where a value should. -/
  | foreign (thing : Foreign)

namespace Value

/-- All but `nil` and `false` is true. -/
def isTruthy : Value → Bool
  | nil | bool false => false
  | _ => true

/-! ## Printing -/

mutual

def display (names : NameTable) : Value → Except Fault Glyphs
  | nil => .ok (.ofString "nil")
  | bool b => .ok (.ofString (if b then "true" else "false"))
  | int n => .ok (.ofString (toString n))
  | str text => .ok text
  | keyword n =>
    match names.text? n with
    | some text => .ok (.char ':' :: text)
    | none => .error (.unknownName n)
  | vector items =>
    (displayEach names items).map fun parts =>
      .char '[' :: (List.intercalate [.char ' '] parts ++ [.char ']'])
  | function f => .ok [.function f]
  | foreign thing => .error (.notAValue thing)

def displayEach (names : NameTable) : List Value → Except Fault (List Glyphs)
  | [] => .ok []
  | v :: vs =>
    match v.display names with
    | .error f => .error f
    | .ok text => (displayEach names vs).map (text :: ·)

end

/-- A keyword by its number, and `nil`; the other values are not described. -/
def describe? : Value → Option String
  | nil => some "nil"
  | keyword n => some ("Keyword(" ++ toString n ++ ")")
  | _ => none

/-! ## Nesting -/

mutual

/-- How many vectors deep the value goes. -/
def nesting : Value → Nat
  | vector items => nestingEach items + 1
  | _ => 0

def nestingEach : List Value → Nat
  | [] => 0
  | v :: vs => max v.nesting (nestingEach vs)

end

/-- How many vectors deep a value may go to be shown. -/
def showLimit : Nat := 990

/-- The printed form of a value, within the limit. -/
def show? (names : NameTable) (v : Value) : Except Fault Glyphs :=
  if v.nesting > showLimit then .error .stackExhausted else v.display names

/-- How many vectors deep the value goes along first items. -/
def firstNesting : Value → Nat
  | vector (v :: _) => v.firstNesting + 1
  | _ => 0

/-! ## Equality -/

mutual

def isEqual : Value → Value → Bool
  | nil, nil => true
  | bool a, bool b => a == b
  | int a, int b => a == b
  | str a, str b => a == b
  | keyword a, keyword b => a == b
  | vector as, vector bs => areEqual as bs
  | function a, function b => a == b
  | foreign a, foreign b => a.isEqual b
  | _, _ => false

def areEqual : List Value → List Value → Bool
  | [], [] => true
  | a :: as, b :: bs => a.isEqual b && areEqual as bs
  | _, _ => false

end

/-- Whether two values are of the same kind. -/
def sameKind : Value → Value → Bool
  | nil, nil | bool _, bool _ | int _, int _ | str _, str _ | keyword _, keyword _
  | vector _, vector _ | function _, function _ | foreign _, foreign _ => true
  | _, _ => false

mutual

def comparedLevels : Value → Value → Nat
  | vector as, vector bs => if as.length = bs.length then comparedEach as bs + 1 else 1
  | _, _ => 0

def comparedEach : List Value → List Value → Nat
  | a :: as, b :: bs =>
    if a.isEqual b then max (a.comparedLevels b) (comparedEach as bs) else a.comparedLevels b
  | _, _ => 0

end

end Value

end LineLisp
