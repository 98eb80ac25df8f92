/-
  LineLisp.Function — the functions that values can be: the sixteen built-in ones,
  and those a host program adds. A host function is known by its serial number;
  its label is what it is shown as.
-/

namespace LineLisp

inductive Builtin
  | add
  | sub
  | mul
  | div
  | mod
  | equal
  | notEqual
  | less
  | lessEqual
  | greater
  | greaterEqual
  | not
  | vector
  | count
  | str
  | keyword
  deriving DecidableEq

namespace Builtin

/-- The name a built-in is bound to at the start. -/
def name : Builtin → String
  | add => "+"
  | sub => "-"
  | mul => "*"
  | div => "/"
  | mod => "mod"
  | equal => "="
  | notEqual => "not="
  | less => "<"
  | lessEqual => "<="
  | greater => ">"
  | greaterEqual => ">="
  | not => "not"
  | vector => "vector"
  | count => "count"
  | str => "str"
  | keyword => "keyword"

/-- All built-ins, in the order they are bound. -/
def all : List Builtin :=
  [add, sub, mul, div, mod, equal, notEqual, less, lessEqual, greater, greaterEqual, not, vector,
   count, str, keyword]

theorem mem_all (b : Builtin) : b ∈ all := by cases b <;> decide

def ofName? (s : String) : Option Builtin := all.find? (·.name == s)

end Builtin

inductive Function
  | builtin (b : Builtin)
  | host (serial : Nat) (label : String)
  deriving DecidableEq

def Function.label : Function → String
  | builtin b => b.name
  | host _ label => label

end LineLisp
