/-
  LineLisp.Proofs.Session.Data — data is read back as it is printed.

  Data are the values without strings and functions, with keywords that can be typed.
  The printed form of a datum has the lexemes of its tokens (`exists_prints`), and
  these have the tokens, which names no table has yet. The reader makes an expression
  of them that is the datum written out (`readTokens?_data`), and that evaluates to the
  datum in every session and leaves it as it is (`eval_literal`). A level of nesting
  takes one open group and the stack of a vector, and there is enough of both
  (`printed_data_reads_back`).
-/

import LineLisp.Proofs.Expr.Printing
import LineLisp.Proofs.Expr.RoundTrip
import LineLisp.Proofs.Lexeme.Writing
import LineLisp.Proofs.Session.Answers

namespace LineLisp

/-! ## Data -/

namespace Value

/-- A value of constants, integers of 64 bits, vectors, and keywords of a table whose
    names are not empty and have no separator, bracket or quote in them. -/
inductive Data (names : NameTable) : Value → Prop
  | nil : Data names .nil
  | bool (b : Bool) : Data names (.bool b)
  | int {n : Int} : InWord n → Data names (.int n)
  | keyword {name : Name} {text : Glyphs} : names.text? name = some text → text.shown ≠ [] →
      (∀ c ∈ text.shown, Lexeme.isRunning c = true) → Data names (.keyword name)
  | vector {items : List Value} : (∀ v ∈ items, Data names v) → Data names (.vector items)

mutual

/-- The tokens that a datum is printed with. -/
def tokens : Value → List Token
  | .nil => [.nil]
  | .bool b => [.bool b]
  | .int n => [.integer n]
  | .keyword name => [.keyword name]
  | .vector items => .opener .square :: (tokensEach items ++ [.closer .square])
  | .str _ | .function _ | .foreign _ => []

def tokensEach : List Value → List Token
  | [] => []
  | v :: vs => v.tokens ++ tokensEach vs

end

theorem nesting_le_nestingEach {v : Value} {vs : List Value} (h : v ∈ vs) : v.nesting ≤ nestingEach vs := by
  induction h with
  | head vs => exact Nat.le_max_left _ _
  | tail w _ ih => exact Nat.le_trans ih (Nat.le_max_right _ _)

end Value

/-- A text without separators has no mark of a function in it. -/
theorem Glyphs.eq_ofChars_shown {text : Glyphs} (h : ∀ c ∈ text.shown, Lexeme.isRunning c = true) :
    text = .ofChars text.shown := by
  induction text with
  | nil => rfl
  | cons g text ih =>
    have hshown : Glyphs.shown (g :: text) = g.shown ++ Glyphs.shown text := rfl
    rw [hshown, List.forall_mem_append] at h
    obtain ⟨hg, htext⟩ := h
    cases g with
    | char c => exact congrArg (Glyph.char c :: ·) (ih htext)
    | function f => exact absurd (hg ' ' (List.mem_append_left _ (List.mem_append_left _ (by decide)))) (by decide)

/-! ## Lexemes -/

open Lexeme (Ends Written keys keys_append_of_cut keys_nil keys_separator)

/-- A lexeme has this token wherever it stands, and no name is new. -/
def Lexeme.Means (names : NameTable) (key : Shape × List Char) (t : Token) : Prop :=
  ∀ pos, Lexeme.token names ⟨key.1, key.2, pos⟩ = .ok (t, names)

theorem tokens_of_means {names : NameTable} {xs : List Lexeme} {ts : List Token}
    (h : List.Forall₂ (Lexeme.Means names) (xs.map Lexeme.key) ts) :
    ∃ ps, tokens names xs = (ps, none, names) ∧ ps.map (·.token) = ts := by
  induction xs generalizing ts with
  | nil =>
    cases h
    exact ⟨[], rfl, rfl⟩
  | cons x xs ih =>
    obtain ⟨t, ts, ht, hts, rfl⟩ := List.forall₂_cons_left_iff.mp h
    obtain ⟨ps, hps, rfl⟩ := ih hts
    have hx : x.token names = .ok (t, names) := ht x.pos
    refine ⟨⟨t, x.span⟩ :: ps, ?_, rfl⟩
    rw [tokens_cons_ok hx, hps]

/-- The value prints as this text, which has lexemes of these shapes and texts, for the
    tokens of the value, whatever ends a run after it. -/
structure Value.Prints (names : NameTable) (v : Value) (text : List Char) (ks : List (Shape × List Char)) : Prop where
  display : v.display names = .ok (.ofChars text)
  means : List.Forall₂ (Lexeme.Means names) ks v.tokens
  lexemes : ∀ rest, Ends rest → keys (text ++ rest) = ks ++ keys rest

/-- The same of values that stand in a vector, with single spaces between them. -/
structure Value.PrintsEach (names : NameTable) (vs : List Value) (texts : List (List Char))
    (ks : List (Shape × List Char)) : Prop where
  display : displayEach names vs = .ok (texts.map .ofChars)
  means : List.Forall₂ (Lexeme.Means names) ks (tokensEach vs)
  lexemes : ∀ rest, Ends rest → keys (List.intercalate [' '] texts ++ rest) = ks ++ keys rest

namespace Value

variable {names : NameTable} {v : Value} {vs : List Value} {text : List Char} {texts : List (List Char)}
  {ks ls : List (Shape × List Char)}

/-- A text that is written for the one token of a value is one lexeme. -/
theorem prints_of_written {t : Token} (hdisplay : v.display names = .ok (.ofChars text)) (htokens : v.tokens = [t])
    (h : Written names text t) : ∃ ks, v.Prints names text ks := by
  obtain ⟨shape, hcut, htoken⟩ := Lexeme.token_of_written h
  have hshape : shape ≠ .openString := by
    rintro rfl
    exact nomatch htoken 0
  refine ⟨[(shape, text)], hdisplay, ?_, fun rest hrest => keys_append_of_cut (hcut.of_ends hshape hrest)⟩
  rw [htokens]
  exact .cons htoken .nil

theorem PrintsEach.cons (hv : v.Prints names text ks) (hvs : PrintsEach names vs texts ls) :
    PrintsEach names (v :: vs) (text :: texts) (ks ++ ls) := by
  refine ⟨?_, List.rel_append hv.means hvs.means, fun rest hrest => ?_⟩
  · simp only [displayEach, hv.display, hvs.display]
    rfl
  · cases texts with
    | nil =>
      have hnone : keys rest = ls ++ keys rest := hvs.lexemes rest hrest
      rw [List.intercalate_singleton, hv.lexemes rest hrest, List.append_assoc, ← hnone]
    | cons text' texts =>
      -- the space after the value ends a run, and it is no lexeme
      have hspace : Ends (' ' :: (List.intercalate [' '] (text' :: texts) ++ rest)) := Lexeme.ends_cons (by decide) _
      rw [List.intercalate_cons_cons, List.append_assoc, List.append_assoc]
      show keys (text ++ ' ' :: (List.intercalate [' '] (text' :: texts) ++ rest)) = _
      rw [hv.lexemes _ hspace, keys_separator (by decide), hvs.lexemes rest hrest, List.append_assoc]

theorem exists_printsEach (h : ∀ v ∈ vs, ∃ text ks, v.Prints names text ks) : ∃ texts ks, PrintsEach names vs texts ks := by
  induction vs with
  | nil => exact ⟨[], [], rfl, .nil, fun _ _ => rfl⟩
  | cons v vs ih =>
    obtain ⟨⟨text, ks, hv⟩, hvs⟩ := List.forall_mem_cons.mp h
    obtain ⟨texts, ls, hrest⟩ := ih hvs
    exact ⟨text :: texts, ks ++ ls, .cons hv hrest⟩

theorem intercalate_ofChars (texts : List (List Char)) :
    List.intercalate [.char ' '] (texts.map Glyphs.ofChars) = Glyphs.ofChars (List.intercalate [' '] texts) := by
  induction texts with
  | nil => rfl
  | cons text texts ih =>
    cases texts with
    | nil => simp
    | cons text' texts =>
      rw [List.map_cons, List.map_cons, List.intercalate_cons_cons, ← List.map_cons, ih, List.intercalate_cons_cons]
      simp [Glyphs.ofChars]

theorem PrintsEach.vector (h : PrintsEach names vs texts ks) :
    (Value.vector vs).Prints names ('[' :: (List.intercalate [' '] texts ++ [']']))
      ((.opener .square, ['[']) :: (ks ++ [(.closer .square, [']'])])) := by
  refine ⟨?_, ?_, fun rest hrest => ?_⟩
  · simp only [Value.display, h.display, Except.map, intercalate_ofChars]
    simp [Glyphs.ofChars]
  · exact .cons (fun _ => rfl) (List.rel_append h.means (.cons (fun _ => rfl) .nil))
  · have hopen : keys ('[' :: (List.intercalate [' '] texts ++ ']' :: rest))
        = (.opener .square, ['[']) :: keys (List.intercalate [' '] texts ++ ']' :: rest) :=
      keys_append_of_cut (.opener .square _)
    have hclose : keys (']' :: rest) = (.closer .square, [']']) :: keys rest :=
      keys_append_of_cut (.closer .square rest)
    have hinside := h.lexemes (']' :: rest) (Expr.ends_closer .square rest)
    rw [List.cons_append, List.append_assoc, List.singleton_append, hopen, hinside, hclose]
    simp

theorem Data.exists_prints (h : v.Data names) : ∃ text ks, v.Prints names text ks := by
  induction h with
  | nil => exact ⟨_, prints_of_written rfl rfl (.reserved (by decide))⟩
  | bool b => exact ⟨_, prints_of_written rfl rfl (.reserved (by cases b <;> decide))⟩
  | @int n hn =>
    exact ⟨_, prints_of_written rfl rfl (.integer (numeral_toString n) (length_toDigits_of_inWord hn) hn)⟩
  | @keyword name text hname hne hr =>
    have htext := Glyphs.eq_ofChars_shown hr
    refine ⟨':' :: text.shown, prints_of_written ?_ rfl (.keyword hne hr (htext ▸ hname))⟩
    simp only [display, hname]
    exact congrArg (fun t => Except.ok (Glyph.char ':' :: t)) htext
  | vector _ ih =>
    obtain ⟨texts, ks, h⟩ := exists_printsEach ih
    exact ⟨_, _, h.vector⟩

end Value

/-! ## The expression of a datum -/

/-- The expression is the value written out. -/
inductive Expr.Literal : Expr → Value → Prop
  | nil (span : Span) : Literal (.atom span .nil) .nil
  | bool (span : Span) (b : Bool) : Literal (.atom span (.bool b)) (.bool b)
  | int (span : Span) (n : Int) : Literal (.atom span (.integer n)) (.int n)
  | keyword (span : Span) (name : Name) : Literal (.atom span (.keyword name)) (.keyword name)
  | vector {span : Span} {items : List Expr} {vs : List Value} : List.Forall₂ Literal items vs →
      Literal (.group span .square items) (.vector vs)

namespace Reader

variable (line : Span)

/-- Values that are each read as an item are read as items, one after another. -/
theorem readTokens?_literals {opener : Span} {b : Bracket} {outer : List OpenGroup} {vs : List Value}
    (h : ∀ v ∈ vs, ∀ (items : List Expr) (us : List PlacedToken), us.map (·.token) = v.tokens →
      ∃ e : Expr, e.Literal v ∧ ∀ rest, readTokens? line (⟨opener, b, items⟩ :: outer) (us ++ rest)
        = readTokens? line (⟨opener, b, e :: items⟩ :: outer) rest)
    (items : List Expr) {ts : List PlacedToken} (hts : ts.map (·.token) = Value.tokensEach vs) :
    ∃ es, List.Forall₂ Expr.Literal es vs ∧ ∀ rest, readTokens? line (⟨opener, b, items⟩ :: outer) (ts ++ rest)
      = readTokens? line (⟨opener, b, es.reverse ++ items⟩ :: outer) rest := by
  induction vs generalizing items ts with
  | nil =>
    rw [List.map_eq_nil_iff.mp hts]
    exact ⟨[], .nil, fun _ => rfl⟩
  | cons v vs ih =>
    obtain ⟨us, ws, rfl, hu, hw⟩ := List.map_eq_append_iff.mp hts
    obtain ⟨e, he, hread⟩ := h v List.mem_cons_self items us hu
    obtain ⟨es, hes, hrest⟩ := ih (fun w hw => h w (List.mem_cons_of_mem v hw)) (e :: items) hw
    refine ⟨e :: es, .cons he hes, fun rest => ?_⟩
    rw [List.append_assoc, hread, hrest, List.reverse_cons, List.append_assoc]
    rfl

theorem readTokens?_atom {groups : List OpenGroup} {ts : List PlacedToken} {t : Token} {v : Value} (hts : ts.map (·.token) = [t])
    (h : ∀ span, ∃ e : Expr, e.Literal v ∧ step line groups ⟨t, span⟩ = .ok (place e groups)) :
    ∃ e : Expr, e.Literal v ∧ ∀ rest, readTokens? line groups (ts ++ rest) = resume? line (place e groups) rest := by
  obtain ⟨t, rfl, rfl⟩ := List.map_eq_singleton_iff.mp hts
  obtain ⟨e, he, hstep⟩ := h t.span
  exact ⟨e, he, readTokens?_cons line hstep⟩

/-- The tokens of a datum are read as an expression of it, if that many groups more may
    be open. -/
theorem readTokens?_data {names : NameTable} {v : Value} (h : v.Data names) (groups : List OpenGroup)
    (hroom : groups.length + v.nesting ≤ maxOpen) {ts : List PlacedToken} (hts : ts.map (·.token) = v.tokens) :
    ∃ e : Expr, e.Literal v ∧ ∀ rest, readTokens? line groups (ts ++ rest) = resume? line (place e groups) rest := by
  induction h generalizing groups ts with
  | nil => exact readTokens?_atom line hts fun span => ⟨_, .nil span, rfl⟩
  | bool b => exact readTokens?_atom line hts fun span => ⟨_, .bool span b, rfl⟩
  | @int n _ => exact readTokens?_atom line hts fun span => ⟨_, .int span n, rfl⟩
  | @keyword name _ _ _ _ => exact readTokens?_atom line hts fun span => ⟨_, .keyword span name, rfl⟩
  | @vector items _ ih =>
    obtain ⟨o, us, rfl, ho, hus⟩ := List.map_eq_cons_iff.mp hts
    obtain ⟨vs, cs, rfl, hv, hc⟩ := List.map_eq_append_iff.mp hus
    obtain ⟨c, rfl, hct⟩ := List.map_eq_singleton_iff.mp hc
    have hdeep : groups.length + (Value.nestingEach items + 1) ≤ maxOpen := hroom
    have hopen : step line groups o = .ok (.pending (⟨o.span, .square, []⟩ :: groups)) := by
      simp only [step, ho]
      rw [if_neg (by omega)]
    obtain ⟨es, hes, hitems⟩ := readTokens?_literals line (fun v hv its us hus => by
      have hle := Value.nesting_le_nestingEach hv
      exact ih v hv (⟨o.span, .square, its⟩ :: groups) (by simp only [List.length_cons]; omega) hus) [] hv
    have hclose : step line (⟨o.span, .square, es.reverse ++ []⟩ :: groups) c
        = .ok (place (.group (o.span.join c.span) .square es) groups) := by
      simp only [step, hct, if_true, List.append_nil, List.reverse_reverse]
    refine ⟨.group (o.span.join c.span) .square es, .vector hes, fun rest => ?_⟩
    rw [List.cons_append, readTokens?_cons line hopen, List.append_assoc]
    show readTokens? line _ _ = _
    rw [hitems]
    exact readTokens?_cons line hclose rest

end Reader

/-! ## Evaluation -/

namespace Eval

variable (host : Host) (src : Source) (s : Session)

mutual

/-- What is a value written out evaluates to that value, and nothing else happens. -/
theorem eval_literal {budget : Nat} {e : Expr} {v : Value} (h : e.Literal v) (hbudget : vectorCost * v.nesting ≤ budget) :
    eval host src budget e s = (.ok v, s) := by
  match e with
  | .atom span a => cases h <;> rfl
  | .group span b items =>
    cases h with
    | @vector _ _ vs hitems =>
      have hcost : vectorCost * (Value.nestingEach vs + 1) ≤ budget := hbudget
      rw [Nat.mul_add, Nat.mul_one] at hcost
      rw [eval, bind_run, spend_run, if_neg (by omega)]
      show (evalEach host src (budget - vectorCost) items >>= fun vs => pure (Value.vector vs)) s = _
      rw [bind_run, evalEach_literal hitems (by omega)]
      rfl

theorem evalEach_literal {budget : Nat} {es : List Expr} {vs : List Value} (h : List.Forall₂ Expr.Literal es vs)
    (hbudget : vectorCost * Value.nestingEach vs ≤ budget) : evalEach host src budget es s = (.ok vs, s) := by
  match es with
  | [] =>
    cases h
    rfl
  | e :: es =>
    obtain ⟨v, vs, he, hes, rfl⟩ := List.forall₂_cons_left_iff.mp h
    have hv : vectorCost * v.nesting ≤ budget :=
      Nat.le_trans (Nat.mul_le_mul_left _ (Value.nesting_le_nestingEach List.mem_cons_self)) hbudget
    have hvs : vectorCost * Value.nestingEach vs ≤ budget :=
      Nat.le_trans (Nat.mul_le_mul_left _ (Nat.le_max_right _ _)) hbudget
    rw [evalEach, bind_run, eval_literal he hv]
    show (evalEach host src budget es >>= fun vs => pure (v :: vs)) s = _
    rw [bind_run, evalEach_literal hes hvs]
    rfl

end

end Eval

/-! ## Printed and read -/

theorem Value.areEqual_self {vs : List Value} (h : ∀ v ∈ vs, v.isEqual v = true) : areEqual vs vs = true := by
  induction vs with
  | nil => rfl
  | cons v vs ih =>
    obtain ⟨hv, hvs⟩ := List.forall_mem_cons.mp h
    rw [areEqual, hv, ih hvs]
    rfl

theorem Value.Data.isEqual_self {names : NameTable} {v : Value} (h : v.Data names) : v.isEqual v = true := by
  induction h with
  | nil => rfl
  | bool b => exact beq_self_eq_true b
  | int _ => exact beq_self_eq_true _
  | keyword _ _ _ => exact beq_self_eq_true _
  | vector _ ih => exact areEqual_self ih

theorem Session.setNames_names (s : Session) : s.setNames s.names = s := by
  have hnone : s.names.texts.zipIdx.drop s.names.size = [] := by
    rw [NameTable.size, List.drop_eq_nil_iff, List.length_zipIdx]
  rw [setNames, NameTable.newRecords, hnone]
  simp

/-- The printed form of a datum is read as an expression of it, with no new name. -/
theorem Source.read_of_prints {names : NameTable} {v : Value} {text : List Char} {ks : List (Shape × List Char)}
    (h : v.Data names) (hprints : v.Prints names text ks) (hdeep : v.nesting ≤ Reader.maxOpen) (start : Int) :
    ∃ e : Expr, e.Literal v ∧ Source.read ⟨text, start⟩ names = (.ok e, names) := by
  have hkeys : (Source.mk text start).lexemes.map Lexeme.key = ks := by
    have hlexemes := hprints.lexemes [] Lexeme.ends_nil
    rw [List.append_nil, keys_nil, List.append_nil] at hlexemes
    rw [Source.map_key_lexemes, hlexemes]
  obtain ⟨ps, htokens, hps⟩ := tokens_of_means (hkeys ▸ hprints.means)
  obtain ⟨e, he, hread⟩ := Reader.readTokens?_data (Source.mk text start).span h [] (by simpa using hdeep) hps
  replace hread := hread []
  rw [List.append_nil] at hread
  have hall : (Source.mk text start).tokens names = (ps, none, names) := htokens
  refine ⟨e, he, read_eq_ok_iff.mpr ?_⟩
  rw [hall]
  exact ⟨rfl, hread⟩

/-- The printed form of every datum that is nested no deeper than the reader allows is
    read, with no new name, as an expression that evaluates to that datum in every
    session, whatever its frames bind, and leaves it as it was; the datum equals itself,
    so what comes back is equal to it and printed alike. -/
theorem Session.printed_data_reads_back (host : Host) (s : Session) (start : Int) (v : Value) (h : v.Data s.names)
    (hdeep : v.nesting ≤ Reader.maxOpen) :
    ∃ text e, v.display s.names = .ok text ∧ s.readIn host ⟨text.shown, start⟩ = (.ok e, s) ∧
      (∀ t : Session, t.eval host ⟨text.shown, start⟩ e = (.ok v, t)) ∧ v.isEqual v = true := by
  obtain ⟨text, ks, hprints⟩ := h.exists_prints
  obtain ⟨e, he, hread⟩ := Source.read_of_prints h hprints hdeep start
  refine ⟨.ofChars text, e, hprints.display, ?_, fun t => ?_, h.isEqual_self⟩
  · rw [Glyphs.shown_ofChars, readIn_of_known host (congrArg Prod.snd hread), read_eq_of_read hread, setNames_names]
  · have hbudget : Eval.vectorCost * v.nesting ≤ stackBudget :=
      Nat.le_trans (Nat.mul_le_mul_left _ hdeep) (by decide)
    rw [eval, Eval.eval_literal host _ t he hbudget]
    rfl

/-- The least integer, the keyword of a built-in's name and a vector in a vector. -/
theorem Session.printed_data_reads_back_nested :
    let s := fresh
    let v : Value := .vector [.int minWord, .keyword 0, .vector [.nil, .bool true]]
    v.display s.names = .ok (.ofString "[-9223372036854775808 :+ [nil true]]") ∧ v.nesting ≤ Reader.maxOpen ∧
      ∃ text e, v.display s.names = .ok text ∧ s.readIn Hosts.none ⟨text.shown, 7⟩ = (.ok e, s) ∧
        (∀ t : Session, t.eval Hosts.none ⟨text.shown, 7⟩ e = (.ok v, t)) ∧ v.isEqual v = true := by
  intro s v
  have hname : s.names.text? 0 = some (.ofString "+") := by decide +kernel
  have hinner : (Value.vector [.nil, .bool true]).Data s.names :=
    .vector (List.forall_mem_cons.mpr ⟨.nil, List.forall_mem_singleton.mpr (.bool true)⟩)
  have h : v.Data s.names := by
    refine .vector (List.forall_mem_cons.mpr ⟨.int (by decide), List.forall_mem_cons.mpr ⟨?_, List.forall_mem_singleton.mpr hinner⟩⟩)
    exact .keyword hname (by decide) (List.forall_mem_singleton.mpr (rfl : Lexeme.isRunning '+' = true))
  have hdeep : v.nesting ≤ Reader.maxOpen := by decide
  exact ⟨rfl, hdeep, printed_data_reads_back Hosts.none s 7 v h hdeep⟩

end LineLisp
