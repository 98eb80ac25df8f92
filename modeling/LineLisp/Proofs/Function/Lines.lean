/-
  LineLisp.Proofs.Function.Lines — a function of values that are printed on one line has a
  value that is printed on one line.

  The texts in a value are its strings, the names of its keywords and the marks of its
  functions. If no text has a newline in it then no printed form has (`oneLine_display`),
  for the rest of it is constants, digits, brackets, colons and spaces. Built-ins print
  their arguments into strings and make names of strings, so that a call on such values
  has such a value and leaves a table of such names (`Function.call_oneLine`).
-/

import LineLisp.Function.Call
import LineLisp.Proofs.Lexeme.Writing

namespace LineLisp

/-! ## Texts -/

/-- The text is shown on one line. -/
def Glyphs.OneLine (text : Glyphs) : Prop := '\n' ∉ text.shown

instance (text : Glyphs) : Decidable text.OneLine := inferInstanceAs (Decidable ('\n' ∉ text.shown))

namespace Glyphs

theorem oneLine_ofChars {cs : List Char} : (ofChars cs).OneLine ↔ '\n' ∉ cs := by
  rw [OneLine, shown_ofChars]

theorem oneLine_append {t u : Glyphs} : OneLine (t ++ u) ↔ OneLine t ∧ OneLine u := by
  simp only [OneLine, shown, List.flatMap_append, List.mem_append, not_or]

theorem oneLine_flatten {ts : List Glyphs} (h : ∀ t ∈ ts, OneLine t) : OneLine ts.flatten := by
  induction ts with
  | nil => exact List.not_mem_nil
  | cons t ts ih =>
    obtain ⟨ht, hts⟩ := List.forall_mem_cons.mp h
    exact oneLine_append.mpr ⟨ht, ih hts⟩

theorem oneLine_intercalate {separator : Glyphs} (hs : separator.OneLine) {ts : List Glyphs} (h : ∀ t ∈ ts, OneLine t) :
    OneLine (List.intercalate separator ts) := by
  induction ts with
  | nil => exact List.not_mem_nil
  | cons t ts ih =>
    obtain ⟨ht, hts⟩ := List.forall_mem_cons.mp h
    cases ts with
    | nil => rwa [List.intercalate_singleton]
    | cons u ts =>
      rw [List.intercalate_cons_cons]
      exact oneLine_append.mpr ⟨oneLine_append.mpr ⟨ht, hs⟩, ih hts⟩

end Glyphs

namespace NameTable

variable {names : NameTable} {text : Glyphs}

def OneLine (names : NameTable) : Prop := ∀ text ∈ names.texts, Glyphs.OneLine text

theorem OneLine.intern (h : names.OneLine) (ht : text.OneLine) : (names.intern text).2.OneLine := by
  unfold OneLine
  rw [texts_intern]
  split
  · exact h
  · exact List.forall_mem_append.mpr ⟨h, List.forall_mem_singleton.mpr ht⟩

theorem OneLine.internAll {texts : List Glyphs} (h : names.OneLine) (ht : ∀ text ∈ texts, Glyphs.OneLine text) :
    (names.internAll texts).OneLine := by
  induction texts generalizing names with
  | nil => exact h
  | cons text texts ih =>
    obtain ⟨htext, htexts⟩ := List.forall_mem_cons.mp ht
    exact ih (h.intern htext) htexts

theorem OneLine.text? (h : names.OneLine) {name : Name} (ht : names.text? name = some text) : text.OneLine :=
  h text (List.mem_of_getElem? ht)

end NameTable

/-! ## Values -/

namespace Value

mutual

/-- The texts in a value, however deep in vectors. -/
def texts (names : NameTable) : Value → List Glyphs
  | str text => [text]
  | keyword name => (names.text? name).toList
  | function f => [[.function f]]
  | vector items => textsEach names items
  | _ => []

def textsEach (names : NameTable) : List Value → List Glyphs
  | [] => []
  | v :: vs => v.texts names ++ textsEach names vs

end

theorem textsEach_eq_flatMap (names : NameTable) (vs : List Value) : textsEach names vs = vs.flatMap (texts names) := by
  induction vs with
  | nil => simp [textsEach]
  | cons v vs ih => simp [textsEach, ih]

/-- The texts in the value are shown on one line, if those of the table are. -/
def OneLine (v : Value) : Prop := ∀ names : NameTable, names.OneLine → ∀ text ∈ v.texts names, Glyphs.OneLine text

theorem oneLine_of_texts_eq_nil {v : Value} (h : ∀ names, v.texts names = []) : v.OneLine := by
  intro names _
  simp [h names]

theorem oneLine_str {text : Glyphs} : (str text).OneLine ↔ text.OneLine := by
  constructor
  · intro h
    exact h .empty (fun _ ht => (nomatch ht)) text List.mem_cons_self
  · intro h names _
    exact List.forall_mem_singleton.mpr h

theorem oneLine_keyword (name : Name) : (keyword name).OneLine :=
  fun _ hnames _ ht => hnames.text? (Option.mem_toList.mp ht)

theorem oneLine_builtin (b : Builtin) : (function (.builtin b)).OneLine := by
  have hlabel : Glyphs.OneLine [.function (.builtin b)] := by cases b <;> decide
  exact fun names _ => List.forall_mem_singleton.mpr hlabel

theorem oneLine_vector {items : List Value} : (vector items).OneLine ↔ ∀ v ∈ items, v.OneLine := by
  simp only [OneLine, texts, textsEach_eq_flatMap, List.mem_flatMap]
  exact ⟨fun h v hv names hn text ht => h names hn text ⟨v, hv, ht⟩, fun h names hn text ⟨v, hv, ht⟩ => h v hv names hn text ht⟩

/-! ## Printing -/

theorem newline_not_mem_toString (n : Int) : '\n' ∉ (toString n).toList := by
  intro h
  obtain ⟨_, _, _, _, hrunning⟩ := Lexeme.isWord_of_numeral (numeral_toString n)
  exact absurd (hrunning '\n' h) (by decide)

mutual

theorem oneLine_display {names : NameTable} {v : Value} {text : Glyphs} (h : ∀ t ∈ v.texts names, Glyphs.OneLine t)
    (hd : v.display names = .ok text) : text.OneLine := by
  match v with
  | .nil => cases hd; exact Glyphs.oneLine_ofChars.mpr (by decide)
  | .bool b => cases hd; exact Glyphs.oneLine_ofChars.mpr (by cases b <;> decide)
  | .int n => cases hd; exact Glyphs.oneLine_ofChars.mpr (newline_not_mem_toString n)
  | .str _ => cases hd; exact h text List.mem_cons_self
  | .keyword name =>
    simp only [display] at hd
    cases hname : names.text? name with
    | none => rw [hname] at hd; cases hd
    | some t =>
      rw [hname] at hd
      cases hd
      have ht : t.OneLine := h t (by simp [texts, hname])
      have hcolon : (Glyphs.ofChars [':']).OneLine := by decide
      exact Glyphs.oneLine_append.mpr ⟨hcolon, ht⟩
  | .vector items =>
    simp only [display] at hd
    cases hitems : displayEach names items with
    | error f => rw [hitems] at hd; cases hd
    | ok parts =>
      rw [hitems] at hd
      cases hd
      have hopen : (Glyphs.ofChars ['[']).OneLine := by decide
      have hclose : (Glyphs.ofChars [']']).OneLine := by decide
      have hspace : (Glyphs.ofChars [' ']).OneLine := by decide
      have hinside := Glyphs.oneLine_intercalate hspace (oneLine_displayEach h hitems)
      exact Glyphs.oneLine_append.mpr ⟨hopen, Glyphs.oneLine_append.mpr ⟨hinside, hclose⟩⟩
  | .function f => cases hd; exact h _ List.mem_cons_self
  | .foreign thing => cases hd

theorem oneLine_displayEach {names : NameTable} {vs : List Value} {parts : List Glyphs}
    (h : ∀ t ∈ textsEach names vs, Glyphs.OneLine t) (hd : displayEach names vs = .ok parts) :
    ∀ part ∈ parts, Glyphs.OneLine part := by
  match vs with
  | [] => cases hd; exact fun _ hp => nomatch hp
  | v :: vs =>
    obtain ⟨hv, hvs⟩ := List.forall_mem_append.mp h
    simp only [displayEach] at hd
    cases hfirst : v.display names with
    | error f => rw [hfirst] at hd; cases hd
    | ok text =>
      cases hrest : displayEach names vs with
      | error f => rw [hfirst, hrest] at hd; cases hd
      | ok texts =>
        rw [hfirst, hrest] at hd
        cases hd
        exact List.forall_mem_cons.mpr ⟨oneLine_display hv hfirst, oneLine_displayEach hvs hrest⟩

end

end Value

/-! ## Built-ins -/

def Reply.OneLine (r : Reply) : Prop := ∀ v, r = .value v → v.OneLine

/-- Host functions that keep to one line. -/
def Hosts.OneLine (hosts : Hosts) : Prop :=
  ∀ serial args, (∀ v ∈ args, Value.OneLine v) → (hosts serial args).OneLine

theorem Hosts.none_oneLine : Hosts.none.OneLine := fun _ _ _ _ h => nomatch h

theorem Reply.value_oneLine {v : Value} : (Reply.value v).OneLine ↔ v.OneLine :=
  ⟨fun h => h v rfl, fun h w hw => by cases hw; exact h⟩

/-- Values without texts are shown on one line. -/
theorem Reply.ofOption_oneLine {α : Type} (o : Option α) {f : α → Value} (hf : ∀ a names, (f a).texts names = []) :
    (Reply.ofOption (o.map f)).OneLine := by
  cases o with
  | none => exact fun v hv => nomatch hv
  | some a => exact value_oneLine.mpr (Value.oneLine_of_texts_eq_nil (hf a))

namespace Builtin

variable {names : NameTable} {args : List Value}

theorem countOf_oneLine (args : List Value) : (Reply.ofOption (countOf args)).OneLine := by
  unfold countOf
  split
  · exact Reply.ofOption_oneLine _ fun _ _ => rfl
  · exact Reply.ofOption_oneLine _ fun _ _ => rfl
  · exact fun v hv => nomatch hv

theorem negated_oneLine (args : List Value) : (Reply.ofOption (negated args)).OneLine := by
  unfold negated
  split
  · exact Reply.value_oneLine.mpr (Value.oneLine_of_texts_eq_nil fun _ => rfl)
  · exact fun v hv => nomatch hv

theorem concatenated_oneLine (hnames : names.OneLine) (h : ∀ v ∈ args, v.OneLine) : (concatenated names args).OneLine := by
  unfold concatenated
  split
  · rename_i parts hparts
    have htexts : ∀ t ∈ Value.textsEach names args, Glyphs.OneLine t := Value.oneLine_vector.mpr h names hnames
    exact Reply.value_oneLine.mpr (Value.oneLine_str.mpr (Glyphs.oneLine_flatten (Value.oneLine_displayEach htexts hparts)))
  · exact fun v hv => nomatch hv

/-- A built-in called on one-line values has a one-line value and leaves one-line names. -/
theorem run_oneLine (hnames : names.OneLine) (h : ∀ v ∈ args, v.OneLine) (b : Builtin) :
    (b.run names args).1.OneLine ∧ (b.run names args).2.OneLine := by
  cases b with
  | add | sub | mul | div | mod | equal | notEqual | less | lessEqual | greater | greaterEqual =>
    exact ⟨Reply.ofOption_oneLine _ fun _ _ => rfl, hnames⟩
  | not => exact ⟨negated_oneLine args, hnames⟩
  | vector => exact ⟨Reply.value_oneLine.mpr (Value.oneLine_vector.mpr h), hnames⟩
  | count => exact ⟨countOf_oneLine args, hnames⟩
  | str => exact ⟨concatenated_oneLine hnames h, hnames⟩
  | keyword =>
    simp only [run]
    split
    · rename_i text
      have htext : text.OneLine := Value.oneLine_str.mp (h _ List.mem_cons_self)
      exact ⟨Reply.value_oneLine.mpr (Value.oneLine_keyword _), hnames.intern htext⟩
    · exact ⟨fun v hv => (nomatch hv), hnames⟩

end Builtin

theorem Function.call_oneLine {hosts : Hosts} (hh : hosts.OneLine) (budget : Nat) {names : NameTable} {args : List Value}
    (hnames : names.OneLine) (h : ∀ v ∈ args, v.OneLine) (f : Function) :
    (f.call hosts budget names args).1.OneLine ∧ (f.call hosts budget names args).2.OneLine := by
  cases f with
  | builtin b =>
    simp only [call]
    split
    · exact ⟨fun v hv => (nomatch hv), hnames⟩
    · exact b.run_oneLine hnames h
  | host serial label => exact ⟨hh serial args h, hnames⟩

end LineLisp
