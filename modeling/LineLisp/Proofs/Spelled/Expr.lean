/-
  LineLisp.Proofs.Spelled.Expr — expressions that hold the texts of their symbols and
  keywords, and reading them with no table of names.

  Lexemes, spans, errors and the limits are those of `LineLisp.Reading` and
  `LineLisp.Expr.Reader`. A lexeme has the same token wherever it stands, so reading
  is a function of the line alone.
-/

import LineLisp.Expr.Reader

namespace LineLisp.Spelled

inductive Atom
  | bool (b : Bool)
  | integer (n : Int)
  | keyword (text : Glyphs)
  | nil
  | string
  | symbol (text : Glyphs)
  | operator (op : Operator)

inductive Expr
  | atom (span : Span) (a : Atom)
  | group (span : Span) (bracket : Bracket) (items : List Expr)

def Expr.span : Expr → Span
  | atom span _ => span
  | group span _ _ => span

/-! ## Tokens -/

inductive Token
  | opener (b : Bracket)
  | closer (b : Bracket)
  | atom (a : Atom)

def reserved : List (String × Atom) :=
  [("def", .operator .define), ("if", .operator .choose), ("let", .operator .bind), ("nil", .nil),
   ("true", .bool true), ("false", .bool false)]

def wordAtom (x : Lexeme) : Except ReadFailure Atom :=
  match reserved.lookup (String.ofList x.text) with
  | some a => .ok a
  | none =>
    if isNumber x.text then
      if (unsigned x.text).length > maxDigits then .error (.tooManyDigits (unsigned x.text).length)
      else if InWord (numberValue x.text) then .ok (.integer (numberValue x.text))
      else .error (.error ⟨x.span, .integerRange⟩)
    else if startsLikeNumber x.text then .error (.error ⟨x.span, .malformedInteger⟩)
    else .ok (.symbol (.ofChars x.text))

def token (x : Lexeme) : Except ReadFailure Token :=
  match x.shape with
  | .opener b => .ok (.opener b)
  | .closer b => .ok (.closer b)
  | .string => .ok (.atom .string)
  | .openString => .error (.error ⟨x.span, .openString⟩)
  | .keyword =>
    match x.text.tail with
    | [] => .error (.error ⟨x.span, .emptyKeyword⟩)
    | text => .ok (.atom (.keyword (.ofChars text)))
  | .word => (wordAtom x).map .atom

/-! ## Reading -/

structure OpenGroup where
  opener : Span
  bracket : Bracket
  /-- The last item first. -/
  items : List Expr

inductive Progress
  | pending (groups : List OpenGroup)
  | complete (e : Expr)

def place (e : Expr) : List OpenGroup → Progress
  | [] => .complete e
  | g :: outer => .pending ({ g with items := e :: g.items } :: outer)

def atHead : List OpenGroup → Bool
  | ⟨_, .round, []⟩ :: _ => true
  | _ => false

def step (line : Span) (groups : List OpenGroup) (at_ : Span) : Token → Except ReadError Progress
  | .opener b =>
    if groups.length ≥ Reader.maxOpen then .error ⟨line, .tooDeep⟩
    else .ok (.pending (⟨at_, b, []⟩ :: groups))
  | .closer b =>
    match groups with
    | [] => .error ⟨at_, .strayCloser b⟩
    | g :: outer =>
      if g.bracket = b then .ok (place (.group (g.opener.join at_) b g.items.reverse) outer)
      else .error ⟨g.opener, .unbalanced⟩
  | .atom (.operator op) =>
    if atHead groups then .ok (place (.atom at_ (.operator op)) groups)
    else .error ⟨at_, .misplacedOperator op⟩
  | .atom a => .ok (place (.atom at_ a) groups)

def endError (eof : Span) : List OpenGroup → ReadError
  | [] => ⟨eof, .endOfInput⟩
  | g :: _ => ⟨g.opener, .unbalanced⟩

def finish (e : Expr) : List Lexeme → Except ReadFailure Expr
  | [] => .ok e
  | x :: _ =>
    match token x with
    | .error f => .error f
    | .ok _ => .error (.error ⟨x.span, .trailing⟩)

def readFrom (line eof : Span) (groups : List OpenGroup) : List Lexeme → Except ReadFailure Expr
  | [] => .error (.error (endError eof groups))
  | x :: xs =>
    match token x with
    | .error f => .error f
    | .ok t =>
      match step line groups x.span t with
      | .error e => .error (.error e)
      | .ok (.pending groups) => readFrom line eof groups xs
      | .ok (.complete e) => finish e xs

/-- The expression a line reads as. -/
def read (src : Source) : Except ReadFailure Expr := readFrom src.span src.eof [] src.lexemes

end LineLisp.Spelled
