/-
  LineLisp.Proofs.Log.Replay — what the records of a session tell without it.

  Records can be replayed: `depthAfterAll?` follows the number of frames through them, from
  any number on, and stops at a record that carries another depth than there is then.
  Records that lead from the bottom frame to the bottom frame are balanced like brackets,
  each with its depth (`balanced_of_depthAfterAll?`). Every operation of a session that has
  stack for its records adds such as can be replayed (`Session.Adds`), or none; and those of
  names, in order, are the table (`Session.Named`) or some of it (`Session.NamedInPart`).
-/

import LineLisp.Proofs.NameTable.Growth
import LineLisp.Session

namespace LineLisp

/-! ## Records -/

namespace LogEvent

def interned? : LogEvent → Option (Glyphs × Name)
  | interned text name => some (text, name)
  | _ => none

/-- The depth that a record carries. -/
def depth? : LogEvent → Option Nat
  | pushed depth | popped depth | defined _ depth => some depth
  | _ => none

def isPushed : LogEvent → Bool
  | pushed _ => true
  | _ => false

def isPopped : LogEvent → Bool
  | popped _ => true
  | _ => false

def isDefined : LogEvent → Bool
  | defined _ _ => true
  | _ => false

/-- What carries no depth is no definition. -/
theorem not_isDefined_of_depth? {r : LogEvent} (h : r.depth? = none) : r.isDefined = false := by
  cases r <;> first | rfl | cases h

theorem filter_isDefined_of_silent {rs : List LogEvent} (h : ∀ r ∈ rs, r.depth? = none) : rs.filter isDefined = [] := by
  refine List.filter_eq_nil_iff.mpr fun r hr => ?_
  rw [not_isDefined_of_depth? (h r hr)]
  exact Bool.false_ne_true

/-- How many frames there are after the record, if there were `d` before it. -/
def depthAfter? (d : Nat) : LogEvent → Option Nat
  | pushed n => if n = d + 1 then some n else none
  | popped n => if 0 < n ∧ n + 1 = d then some n else none
  | defined _ n => if n = d then some n else none
  | interned _ _ | readFailed _ _ | evalFailed _ _ => some d

def depthAfterAll? (d : Nat) (rs : List LogEvent) : Option Nat := rs.foldlM depthAfter? d

/-- How many frames have been entered and not left. -/
def unclosed (rs : List LogEvent) : Nat := rs.countP isPushed - rs.countP isPopped

/-- Frames within frames, from the bottom frame to the bottom frame. -/
structure Balanced (rs : List LogEvent) : Prop where
  /-- No frame is left that was not entered before. -/
  nested : ∀ before, before <+: rs → before.countP isPopped ≤ before.countP isPushed
  closed : rs.countP isPopped = rs.countP isPushed
  /-- A record carries the depth there is after it; a definition is no bracket, so its depth
      is that of the frames which are open around it. -/
  depth : ∀ before r n, before ++ [r] <+: rs → r.depth? = some n → n = 1 + unclosed (before ++ [r])

variable {d d' n : Nat} {r : LogEvent} {rs rs' : List LogEvent}

theorem depthAfterAll?_cons :
    depthAfterAll? d (r :: rs) = some d' ↔ ∃ m, depthAfter? d r = some m ∧ depthAfterAll? m rs = some d' := by
  rw [depthAfterAll?, List.foldlM_cons]
  exact Option.bind_eq_some_iff

theorem depthAfterAll?_append :
    depthAfterAll? d (rs ++ rs') = some d' ↔ ∃ m, depthAfterAll? d rs = some m ∧ depthAfterAll? m rs' = some d' := by
  rw [depthAfterAll?, List.foldlM_append]
  exact Option.bind_eq_some_iff

theorem depthAfterAll?_singleton : depthAfterAll? d [r] = depthAfter? d r := by
  simp [depthAfterAll?]

theorem depthAfterAll?_of_silent (h : ∀ r ∈ rs, r.depth? = none) : depthAfterAll? d rs = some d := by
  induction rs with
  | nil => rfl
  | cons r rs ih =>
    obtain ⟨hr, hrs⟩ := List.forall_mem_cons.mp h
    refine depthAfterAll?_cons.mpr ⟨d, ?_, ih hrs⟩
    cases r <;> first | rfl | cases hr

/-- One record: what it carries is the depth after it, and brackets count up and down. -/
theorem depthAfter?_spec (h : depthAfter? d r = some d') :
    d' + [r].countP isPopped = d + [r].countP isPushed ∧ (0 < d → 0 < d') ∧ ∀ n, r.depth? = some n → n = d' := by
  cases r with
  | pushed n =>
    obtain ⟨rfl, hn⟩ := Option.ite_none_right_eq_some.mp h
    cases hn
    exact ⟨rfl, fun _ => Nat.succ_pos d, fun m hm => (Option.some.inj hm).symm⟩
  | popped n =>
    obtain ⟨⟨hpos, rfl⟩, hn⟩ := Option.ite_none_right_eq_some.mp h
    cases hn
    exact ⟨rfl, fun _ => hpos, fun m hm => (Option.some.inj hm).symm⟩
  | defined spelling n =>
    obtain ⟨rfl, hn⟩ := Option.ite_none_right_eq_some.mp h
    cases hn
    exact ⟨rfl, id, fun m hm => (Option.some.inj hm).symm⟩
  | interned | readFailed | evalFailed =>
    cases h
    exact ⟨rfl, id, fun m hm => nomatch hm⟩

theorem depthAfterAll?_spec (h : depthAfterAll? d rs = some d') (hd : 0 < d) :
    d' + rs.countP isPopped = d + rs.countP isPushed ∧ 0 < d' := by
  induction rs generalizing d with
  | nil => cases h; exact ⟨rfl, hd⟩
  | cons r rs ih =>
    obtain ⟨m, hm, hrest⟩ := depthAfterAll?_cons.mp h
    obtain ⟨hcount, hpos, -⟩ := depthAfter?_spec hm
    obtain ⟨hcounts, hd'⟩ := ih hrest (hpos hd)
    refine ⟨?_, hd'⟩
    rw [← List.singleton_append, List.countP_append, List.countP_append]
    omega

/-- Records that can be replayed from the bottom frame to the bottom frame are balanced. -/
theorem balanced_of_depthAfterAll? (h : depthAfterAll? 1 rs = some 1) : Balanced rs := by
  have hprefix : ∀ before, before <+: rs → ∃ m, depthAfterAll? 1 before = some m := by
    rintro before ⟨after, rfl⟩
    obtain ⟨m, hm, -⟩ := depthAfterAll?_append.mp h
    exact ⟨m, hm⟩
  constructor
  · intro before hbefore
    obtain ⟨m, hm⟩ := hprefix before hbefore
    obtain ⟨hcount, hpos⟩ := depthAfterAll?_spec hm Nat.one_pos
    omega
  · obtain ⟨hcount, -⟩ := depthAfterAll?_spec h Nat.one_pos
    omega
  · intro before r n hbefore hn
    obtain ⟨m, hm⟩ := hprefix _ hbefore
    obtain ⟨hcount, hpos⟩ := depthAfterAll?_spec hm Nat.one_pos
    obtain ⟨d, -, hd⟩ := depthAfterAll?_append.mp hm
    rw [depthAfterAll?_singleton] at hd
    obtain rfl : n = m := (depthAfter?_spec hd).2.2 n hn
    rw [unclosed]
    omega

end LogEvent

/-! ## Sessions -/

theorem NameTable.depth?_of_mem_newRecords {old new : NameTable} {r : LogEvent} (h : r ∈ old.newRecords new) :
    r.depth? = none := by
  obtain ⟨p, -, rfl⟩ := List.mem_map.mp h
  rfl

theorem NameTable.filterMap_interned?_newRecords (old new : NameTable) :
    (old.newRecords new).filterMap LogEvent.interned? = new.texts.zipIdx.drop old.size := by
  rw [newRecords, List.filterMap_map]
  exact List.filterMap_some

theorem NameTable.zipIdx_of_grows {old new : NameTable} (h : old.Grows new) :
    old.texts.zipIdx ++ new.texts.zipIdx.drop old.size = new.texts.zipIdx := by
  obtain ⟨more, hmore⟩ := h
  have hlen : old.texts.zipIdx.length = old.size := List.length_zipIdx
  rw [← hmore, List.zipIdx_append, List.drop_left' hlen]

theorem FrameStack.depth_pop {κ ν : Type} {s : FrameStack κ ν} (h : 1 < s.depth) : s.pop.depth + 1 = s.depth := by
  simp only [depth, pop, List.length_tail] at h ⊢
  omega

namespace Session

variable (s : Session)

theorem log_note (e : LogEvent) : (s.note e).log.toList = s.log.toList ++ [e] := Array.toList_push

theorem log_setNames (names : NameTable) :
    (s.setNames names).log.toList = s.log.toList ++ s.names.newRecords names := Array.toList_appendList

theorem leave_of_eq {mark : Nat} (h : s.depth = mark) :
    (s.leave mark).2 = { s with frames := s.frames.pop }.note (.popped s.frames.pop.depth) := by
  have hmark : (s.frames.depth == mark) = true := beq_iff_eq.mpr h
  rw [leave, FrameStack.leave, hmark]

theorem leave_of_ne {mark : Nat} (h : s.depth ≠ mark) : (s.leave mark).2 = { s with frames := s.frames.pop } := by
  have hmark : (s.frames.depth == mark) = false := beq_eq_false_iff_ne.mpr h
  rw [leave, FrameStack.leave, hmark]

/-- The second session has these records more, and they can be replayed from the depth of the
    first to its own. -/
structure Adds (s t : Session) (rs : List LogEvent) : Prop where
  log : t.log.toList = s.log.toList ++ rs
  depth : LogEvent.depthAfterAll? s.depth rs = some t.depth

theorem adds_refl : s.Adds s [] := ⟨(List.append_nil _).symm, rfl⟩

theorem Adds.trans {s t u : Session} {rs rs' : List LogEvent} (h : s.Adds t rs) (h' : t.Adds u rs') :
    s.Adds u (rs ++ rs') :=
  ⟨by rw [h'.log, h.log, List.append_assoc], LogEvent.depthAfterAll?_append.mpr ⟨t.depth, h.depth, h'.depth⟩⟩

theorem adds_note {e : LogEvent} (h : e.depth? = none) : s.Adds (s.note e) [e] :=
  ⟨s.log_note e, LogEvent.depthAfterAll?_of_silent (List.forall_mem_singleton.mpr h)⟩

theorem adds_setNames (names : NameTable) : s.Adds (s.setNames names) (s.names.newRecords names) :=
  ⟨s.log_setNames names, LogEvent.depthAfterAll?_of_silent fun _ => NameTable.depth?_of_mem_newRecords⟩

/-- The names that the log tells of, each with its text. -/
def interned : List (Glyphs × Name) := s.log.toList.filterMap LogEvent.interned?

/-- The log tells the table: the texts in order, each with its place for its name. -/
def Named : Prop := s.interned = s.names.texts.zipIdx

/-- The log tells nothing of names but what is in the table, in order. -/
def NamedInPart : Prop := s.interned.Sublist s.names.texts.zipIdx

theorem interned_note {e : LogEvent} (he : e.interned? = none) : (s.note e).interned = s.interned := by
  rw [interned, log_note, List.filterMap_append, List.filterMap_cons_none he, List.filterMap_nil, List.append_nil]
  rfl

theorem interned_setNames (names : NameTable) :
    (s.setNames names).interned = s.interned ++ names.texts.zipIdx.drop s.names.size := by
  rw [interned, log_setNames, List.filterMap_append, NameTable.filterMap_interned?_newRecords]
  rfl

theorem interned_leave (mark : Nat) : (s.leave mark).2.interned = s.interned := by
  by_cases hmark : s.depth = mark
  · rw [leave_of_eq s hmark]
    exact interned_note _ rfl
  · rw [leave_of_ne s hmark]
    rfl

variable {s}

theorem Named.inPart (h : s.Named) : s.NamedInPart := by
  have hall : s.interned = s.names.texts.zipIdx := h
  show s.interned.Sublist s.names.texts.zipIdx
  exact hall ▸ List.Sublist.refl s.interned

theorem Named.setNames (h : s.Named) {names : NameTable} (hgrows : s.names.Grows names) : (s.setNames names).Named := by
  rw [Named, interned_setNames, h]
  exact NameTable.zipIdx_of_grows hgrows

theorem NamedInPart.setNames (h : s.NamedInPart) {names : NameTable} (hgrows : s.names.Grows names) :
    (s.setNames names).NamedInPart := by
  have hpart := h.append_right (names.texts.zipIdx.drop s.names.size)
  rw [NameTable.zipIdx_of_grows hgrows] at hpart
  rw [NamedInPart, interned_setNames]
  exact hpart

/-- Names that are not recorded leave out some of the table. -/
theorem NamedInPart.setTable (h : s.NamedInPart) {names : NameTable} (hgrows : s.names.Grows names) :
    (s.setTable names).NamedInPart := by
  have hpart := h.trans (List.sublist_append_left _ (names.texts.zipIdx.drop s.names.size))
  rwa [NameTable.zipIdx_of_grows hgrows] at hpart

end Session

end LineLisp
