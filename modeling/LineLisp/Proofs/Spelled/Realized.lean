/-
  LineLisp.Proofs.Spelled.Realized — frames that bind texts are frames of a session.

  Interning the texts of a value, or of frames, grows a table that spells them out
  (`exists_matches`), and with one table nothing else is spelled out as they are
  (`Value.eq_of_spelled?`). So what holds of all sessions can be told of all frames
  without names: two stacks of frames become two sessions with one table.
-/

import LineLisp.Proofs.Spelled.Refinement

namespace LineLisp

variable {t u : NameTable}

/-! ## One table spells one value -/

namespace Value

mutual

theorem eq_of_spelled? {v v' : Value} {w : Spelled.Value} (h : v.spelled? t = some w) (h' : v'.spelled? t = some w) :
    v = v' := by
  match v with
  | .vector items =>
    obtain ⟨ws, hi, rfl⟩ := Option.map_eq_some_iff.mp h
    cases spelling h' with
    | vector hi' => rw [eq_of_spelledEach? hi hi']
  | .keyword name =>
    obtain ⟨text, hn, rfl⟩ := Option.map_eq_some_iff.mp h
    cases spelling h' with
    | keyword hn' => rw [NameTable.text?_inj hn hn']
  | .nil | .bool _ | .int _ | .str _ | .function (.builtin _) =>
    cases h
    cases spelling h'
    rfl
  | .function (.host ..) | .foreign _ => cases h

theorem eq_of_spelledEach? {vs vs' : List Value} {ws : List Spelled.Value} (h : spelledEach? t vs = some ws)
    (h' : spelledEach? t vs' = some ws) : vs = vs' := by
  match vs, vs' with
  | [], [] => rfl
  | v :: vs, v' :: vs' =>
    obtain ⟨w, xs, hw, hx, rfl⟩ := spelledEach?_cons_eq_some.mp h
    obtain ⟨w', xs', hw', hx', heq⟩ := spelledEach?_cons_eq_some.mp h'
    obtain ⟨rfl, rfl⟩ := List.cons.inj heq
    rw [eq_of_spelled? hw hw', eq_of_spelledEach? hx hx']
  | [], v' :: vs' =>
    cases h
    obtain ⟨_, _, _, _, heq⟩ := spelledEach?_cons_eq_some.mp h'
    cases heq
  | v :: vs, [] =>
    cases h'
    obtain ⟨_, _, _, _, heq⟩ := spelledEach?_cons_eq_some.mp h
    cases heq

end

/-! ## Every value is spelled by some table -/

mutual

theorem exists_spells (t : NameTable) (w : Spelled.Value) :
    ∃ (v : Value) (u : NameTable), t.Grows u ∧ v.spelled? u = some w := by
  match w with
  | .nil => exact ⟨.nil, t, t.grows_refl, rfl⟩
  | .bool b => exact ⟨.bool b, t, t.grows_refl, rfl⟩
  | .int n => exact ⟨.int n, t, t.grows_refl, rfl⟩
  | .str text => exact ⟨.str text, t, t.grows_refl, rfl⟩
  | .function b => exact ⟨.function (.builtin b), t, t.grows_refl, rfl⟩
  | .keyword text =>
    refine ⟨.keyword (t.intern text).1, (t.intern text).2, t.grows_intern text, ?_⟩
    rw [spelled?, t.text?_intern]
    rfl
  | .vector items =>
    obtain ⟨vs, u, hu, hvs⟩ := exists_spellsEach t items
    refine ⟨.vector vs, u, hu, ?_⟩
    rw [spelled?, hvs]
    rfl

theorem exists_spellsEach (t : NameTable) (ws : List Spelled.Value) :
    ∃ (vs : List Value) (u : NameTable), t.Grows u ∧ spelledEach? u vs = some ws := by
  match ws with
  | [] => exact ⟨[], t, t.grows_refl, rfl⟩
  | w :: ws =>
    obtain ⟨v, u, hu, hv⟩ := exists_spells t w
    obtain ⟨vs, u', hu', hvs⟩ := exists_spellsEach u ws
    exact ⟨v :: vs, u', hu.trans hu', spelledEach?_cons_eq_some.mpr ⟨w, ws, spelled?_of_grows hu' hv, hvs, rfl⟩⟩

end

end Value

/-! ## Frames -/

/-- What a table can be grown to spell out one by one, it can be grown to spell out all
    together. -/
theorem exists_forall₂_of_grows {α β : Type} {R : NameTable → α → β → Prop}
    (hgrow : ∀ {t u : NameTable} {a : α} {b : β}, t.Grows u → R t a b → R u a b)
    (hone : ∀ (t : NameTable) (b : β), ∃ a u, t.Grows u ∧ R u a b) (t : NameTable) (bs : List β) :
    ∃ as u, t.Grows u ∧ List.Forall₂ (R u) as bs := by
  induction bs generalizing t with
  | nil => exact ⟨[], t, t.grows_refl, .nil⟩
  | cons b bs ih =>
    obtain ⟨a, u, hu, ha⟩ := hone t b
    obtain ⟨as, u', hu', has⟩ := ih u
    exact ⟨a :: as, u', hu.trans hu', .cons (hgrow hu' ha) has⟩

theorem Frame.exists_spells (t : NameTable) (g : Frame Glyphs Spelled.Value) :
    ∃ f u, t.Grows u ∧ Frame.Spells u f g := by
  have hone (t : NameTable) (q : Glyphs × Spelled.Value) :
      ∃ (p : Name × Value) (u : NameTable), t.Grows u ∧ u.text? p.1 = some q.1 ∧ p.2.spelled? u = some q.2 := by
    obtain ⟨v, u, hu, hv⟩ := Value.exists_spells (t.intern q.1).2 q.2
    refine ⟨((t.intern q.1).1, v), u, (t.grows_intern q.1).trans hu, ?_, hv⟩
    exact NameTable.text?_of_grows hu (t.text?_intern q.1)
  obtain ⟨es, u, hu, hes⟩ := exists_forall₂_of_grows
    (fun hu h => ⟨NameTable.text?_of_grows hu h.1, Value.spelled?_of_grows hu h.2⟩) hone t g.entries
  exact ⟨⟨es⟩, u, hu, hes⟩

namespace Spelled

/-- What a name means on one side, its text means on the other. -/
theorem Matches.get? {s : Session} {r : Frames} {name : Name} {text : Glyphs} (h : Matches t s r)
    (hname : t.text? name = some text) : SpelledOption s.names (s.get? name) (r.get? text) :=
  h.frames.get? (NameTable.text?_of_grows h.grows hname)

end Spelled

end LineLisp
