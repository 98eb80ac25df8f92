/-
  LineLisp.Token — what the reader works on: brackets, operators and atoms, with
  their names already interned. The words an operator or a constant is written with
  are reserved: `Token.reserved` lists them. Integers are unbounded everywhere; what
  must stay in the range of a signed 64-bit integer is checked against it.
-/

import LineLisp.NameTable

namespace LineLisp

inductive Bracket
  | round
  | square
  deriving DecidableEq

namespace Bracket

def opener : Bracket → Char
  | round => '('
  | square => '['

def closer : Bracket → Char
  | round => ')'
  | square => ']'

end Bracket

/-- The operators of the special forms: `def`, `if` and `let`. -/
inductive Operator
  | define
  | choose
  | bind
  deriving DecidableEq

def Operator.word : Operator → String
  | define => "def"
  | choose => "if"
  | bind => "let"

inductive Token
  | opener (b : Bracket)
  | closer (b : Bracket)
  | integer (n : Int)
  | string
  | keyword (name : Name)
  | symbol (name : Name)
  | bool (b : Bool)
  | nil
  | operator (op : Operator)
  deriving DecidableEq

namespace Token

def reserved : List (String × Token) :=
  [(Operator.define.word, .operator .define), (Operator.choose.word, .operator .choose),
   (Operator.bind.word, .operator .bind), ("nil", .nil), ("true", .bool true), ("false", .bool false)]

/-- The token of a reserved word. -/
def reserved? (word : String) : Option Token := reserved.lookup word

end Token

/-! ## The range of integers -/

def minWord : Int := -0x8000000000000000

def maxWord : Int := 0x7FFFFFFFFFFFFFFF

def InWord (n : Int) : Prop := minWord ≤ n ∧ n ≤ maxWord

instance (n : Int) : Decidable (InWord n) := inferInstanceAs (Decidable (_ ∧ _))

/-- The number itself, if it is in the range. -/
def checkWord (n : Int) : Option Int := if InWord n then some n else none

theorem checkWord_eq_some_iff {n m : Int} : checkWord n = some m ↔ InWord n ∧ n = m := by
  unfold checkWord; split <;> simp_all

theorem checkWord_eq_none_iff {n : Int} : checkWord n = none ↔ ¬ InWord n := by
  unfold checkWord; split <;> simp_all

end LineLisp
