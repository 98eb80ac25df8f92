/-
  LineLisp.Proofs.Expr.Spans — spans are faithful.

  Between two tokens of a line stands a part of it that has just the lexemes between them
  (`lexemes_fragment`); so the text of a node, as a line of its own at its place, is read
  as that node with the names of the line (`read_fragment`). The span of a group holds its
  two brackets and between them, in order and apart, the spans of its items. All this is
  said of every node of what a line is read as (`spans_are_faithful`).
-/

import LineLisp.Proofs.Expr.Fragments
import LineLisp.Proofs.Lexeme.Writing

namespace LineLisp

open Grammar

/-! ## Tokens and lexemes one by one -/

theorem tokens_of_forall₂ {u : NameTable} {ts : List PlacedToken} {xs : List Lexeme}
    (h : List.Forall₂ (fun t x => t.span = x.span ∧ x.token u = .ok (t.token, u)) ts xs) :
    tokens u xs = (ts, none, u) := by
  induction h with
  | nil => rfl
  | @cons t x ts xs htx _ ih =>
    obtain ⟨hspan, htoken⟩ := htx
    rw [tokens_cons_ok htoken, ih, ← hspan]

theorem exists_of_forall₂_append {α β : Type} {R : α → β → Prop} {as as' : List α} {bs : List β}
    (h : List.Forall₂ R (as ++ as') bs) :
    ∃ cs cs', bs = cs ++ cs' ∧ List.Forall₂ R as cs ∧ List.Forall₂ R as' cs' := by
  induction as generalizing bs with
  | nil => exact ⟨[], bs, rfl, .nil, h⟩
  | cons a as ih =>
    obtain ⟨b, bs, hab, hrest, rfl⟩ := List.forall₂_cons_left_iff.mp h
    obtain ⟨cs, cs', rfl, hcs, hcs'⟩ := ih hrest
    exact ⟨b :: cs, cs', rfl, .cons hab hcs, hcs'⟩

/-! ## Items and brackets in their order -/

namespace Expr

/-- An item begins and ends where tokens between the brackets do. -/
theorem exists_ends_of_mem {es : List Expr} {e : Expr} {ts : List PlacedToken} (h : flattenEach? es = some ts)
    (he : e ∈ es) : ∃ first ∈ ts, ∃ last ∈ ts, first.span.lo = e.span.lo ∧ last.span.hi = e.span.hi := by
  obtain ⟨us, hu, hin⟩ := exists_segmentEach h (mem_nodesEach he e.mem_nodes_self)
  obtain ⟨first, last, hfirst, hlast, hlo, hhi⟩ := flatten?_ends hu
  have hf : first ∈ us := List.mem_of_mem_head? hfirst
  have hl : last ∈ us := List.mem_of_getLast? hlast
  exact ⟨first, hin.subset hf, last, hin.subset hl, hlo, hhi⟩

theorem pairwise_siblings {es : List Expr} {ts : List PlacedToken} (h : flattenEach? es = some ts)
    (hordered : ts.Pairwise PlacedToken.Before) : es.Pairwise fun e e' => e.span.hi ≤ e'.span.lo := by
  induction es generalizing ts with
  | nil => exact .nil
  | cons e es ih =>
    obtain ⟨us, vs, hu, hv, rfl⟩ := flattenEach?_cons_eq_some.mp h
    obtain ⟨-, hrest, hcross⟩ := List.pairwise_append.mp hordered
    refine List.pairwise_cons.mpr ⟨fun e' he' => ?_, ih hv hrest⟩
    obtain ⟨-, last, -, hlast, -, hhi⟩ := flatten?_ends hu
    obtain ⟨first, hfirst, -, -, hlo, -⟩ := exists_ends_of_mem hv he'
    rw [← hhi, ← hlo]
    exact hcross last (List.mem_of_getLast? hlast) first hfirst

/-- The items of a group stand between its brackets. -/
theorem between_brackets {span : Span} {b : Bracket} {items : List Expr} {ts : List PlacedToken}
    (h : (group span b items).flatten? = some ts) (hordered : ts.Pairwise PlacedToken.Before) {e : Expr}
    (he : e ∈ items) : span.lo + 1 ≤ e.span.lo ∧ e.span.hi ≤ span.hi - 1 := by
  obtain ⟨vs, hv, rfl⟩ := Option.map_eq_some_iff.mp h
  obtain ⟨first, hfirst, last, hlast, hlo, hhi⟩ := exists_ends_of_mem hv he
  obtain ⟨hopen, hrest⟩ := List.pairwise_cons.mp hordered
  obtain ⟨-, -, hclose⟩ := List.pairwise_append.mp hrest
  have hbefore : (b.first span).Before first := hopen first (List.mem_append_left _ hfirst)
  have hafter : last.Before (b.last span) := hclose last hlast _ (List.mem_singleton_self _)
  rw [← hlo, ← hhi]
  exact ⟨hbefore, hafter⟩

end Expr

/-! ## Parts of a line -/

namespace Source

variable {src : Source} {names names' u : NameTable} {e n : Expr}

/-- A part of a line as a line of its own, at its place. -/
def fragment (src : Source) (span : Span) : Source := ⟨src.slice span, span.lo⟩

/-- The part from the start of one lexeme to the end of another has those two and the
    ones between them. -/
theorem lexemes_fragment {xs ys zs : List Lexeme} {first last : Lexeme} {span : Span}
    (h : src.lexemes = xs ++ (ys ++ zs)) (hfirst : first ∈ ys.head?) (hlast : last ∈ ys.getLast?)
    (hlo : first.span.lo = span.lo) (hhi : last.span.hi = span.hi) : (src.fragment span).lexemes = ys := by
  obtain ⟨text, start⟩ := src
  obtain ⟨ys', rfl⟩ := List.head?_eq_some_iff.mp hfirst
  obtain ⟨ys'', hys⟩ := List.getLast?_eq_some_iff.mp hlast
  obtain ⟨before, rest, rfl, hpos, hrest⟩ := (Lexeme.scan_iff.mpr h).exists_after
  have hrest : Lexeme.Scan first.pos rest (first :: ys' ++ zs) := hrest
  rw [hys, List.append_assoc] at hrest
  obtain ⟨part, after, rfl, hend, hpart⟩ := hrest.exists_before
  have hstart : first.pos = span.lo := hlo
  have hpos : first.pos = start + before.length := hpos
  have hspan : span = Span.ofLength (start + before.length) part.length := by
    obtain ⟨lo, hi, hle⟩ := span
    obtain rfl : first.pos = lo := hlo
    obtain rfl : last.span.hi = hi := hhi
    simp only [Span.ofLength, hend, hpos]
  have hslice : slice ⟨before ++ (part ++ after), start⟩ span = part := by
    rw [hspan, ← List.append_assoc]
    exact slice_ofLength before part after start
  rw [hstart, ← hys] at hpart
  show Lexeme.ofChars span.lo (slice ⟨before ++ (part ++ after), start⟩ span) = first :: ys'
  rw [hslice]
  exact Lexeme.scan_iff.mp hpart

/-- A line has its tokens also with the names there already. -/
theorem forall₂_tokens_of_grows (h : (src.tokens names).2.1 = none) (hu : (src.tokens names).2.2.Grows u) :
    List.Forall₂ (fun t x => t.span = x.span ∧ x.token u = .ok (t.token, u)) (src.tokens names).1 src.lexemes := by
  refine (forall₂_of_tokens h).imp fun t x hx => ?_
  obtain ⟨hspan, n, n', htoken, hgrow⟩ := hx
  exact ⟨hspan, Lexeme.token_of_grows htoken (hgrow.trans hu)⟩

/-- An atom is what the text at its span is written for. -/
theorem written_of_atom {span : Span} {a : Atom} {t : Token} (h : src.read names = (.ok e, names'))
    (hn : .atom span a ∈ e.nodes) (ha : a.token? = some t) : Lexeme.Written names' (src.slice span) t := by
  obtain ⟨hstop, he⟩ := tokens_of_read h
  obtain ⟨us, hus, hin⟩ := Expr.exists_segment he hn
  obtain rfl : [⟨t, span⟩] = us := by simpa [Expr.flatten?, ha] using hus
  have hnames : (src.tokens names).2.2 = names' := by rw [(read_eq_ok_iff.mp h).1]
  have hall := forall₂_tokens_of_grows hstop (NameTable.grows_refl _)
  rw [hnames] at hall
  obtain ⟨x, hx, hspan, htoken⟩ := exists_of_forall₂_left hall (hin.subset List.mem_cons_self)
  obtain ⟨hcut, hslice, -⟩ := cut_of_mem_lexemes hx
  have hspan : span = x.span := hspan
  rw [hspan, hslice]
  exact Lexeme.written_of_token hcut htoken names'.grows_refl

/-- The tokens of a node, and the lexemes of its part of the line. -/
theorem tokens_fragment (h : src.read names = (.ok e, names')) (hn : n ∈ e.nodes) (hu : names'.Grows u) :
    ∃ us, n.flatten? = some us ∧ us <:+: (src.tokens names).1 ∧ (src.fragment n.span).lexemes <:+: src.lexemes ∧
      List.Forall₂ (fun t x => t.span = x.span ∧ x.token u = .ok (t.token, u)) us (src.fragment n.span).lexemes := by
  obtain ⟨hstop, he⟩ := tokens_of_read h
  obtain ⟨us, hus, hin⟩ := Expr.exists_segment he hn
  obtain ⟨before, after, hts⟩ := hin
  have hnames : (src.tokens names).2.2 = names' := by rw [(read_eq_ok_iff.mp h).1]
  have hall := forall₂_tokens_of_grows hstop (hnames ▸ hu)
  rw [← hts, List.append_assoc] at hall
  obtain ⟨xs, rest, hxs, -, hrest⟩ := exists_of_forall₂_append hall
  obtain ⟨ys, zs, rfl, hys, -⟩ := exists_of_forall₂_append hrest
  obtain ⟨first, last, hfirst, hlast, hlo, hhi⟩ := Expr.flatten?_ends hus
  obtain ⟨x, hx, hfx, -⟩ := exists_head?_of_forall₂ hys hfirst
  obtain ⟨y, hy, hly, -⟩ := exists_getLast?_of_forall₂ hys hlast
  have hpart := lexemes_fragment hxs hx hy (hfx ▸ hlo) (hly ▸ hhi)
  rw [hpart]
  refine ⟨us, hus, ⟨before, after, hts⟩, ⟨xs, zs, ?_⟩, hys⟩
  rw [hxs, List.append_assoc]

/-- The part of a node is read as that node, if it is no operator. -/
theorem read_fragment (h : src.read names = (.ok e, names')) (hn : n ∈ e.nodes) (hop : n.isOperator = false)
    (hu : names'.Grows u) : (src.fragment n.span).read u = (.ok n, u) := by
  obtain ⟨us, hus, -, -, hlexemes⟩ := tokens_fragment h hn hu
  have htokens : (src.fragment n.span).tokens u = (us, none, u) := tokens_of_forall₂ hlexemes
  have hlayout : Layout us := by
    have hl := layout_tokens (src.fragment n.span) u
    rwa [htokens] at hl
  obtain ⟨-, hr⟩ := read_eq_ok_iff.mp h
  obtain ⟨he, hs⟩ := Reader.sentence_of_readTokens? src.span .none (layout_tokens src names) hr
  obtain ⟨us', hus', hsn⟩ := Expr.sentence_of_mem_nodes he hs hn hop
  obtain rfl : us = us' := Option.some.inj (hus.symm.trans hus')
  -- the sentence is read as some expression, and that is written as the node is
  obtain ⟨f, hf⟩ := Reader.readTokens?_sentence (src.fragment n.span).span hsn [] (Nat.le_of_eq (Nat.zero_add _)) rfl
  have hread := hf []
  rw [List.append_nil] at hread
  obtain ⟨hff, -⟩ := Reader.sentence_of_readTokens? (src.fragment n.span).span .none hlayout hread
  obtain rfl : f = n := Expr.flatten?_injective hff hus
  exact read_eq_ok_iff.mpr ⟨by rw [htokens], by rw [htokens]; exact hread⟩

/-! ## Spans say where a node stands -/

theorem slice_append {lo mid hi : Int} (hs : src.start ≤ lo) (hl : lo ≤ mid) (hr : mid ≤ hi) :
    src.slice ⟨lo, hi, Int.le_trans hl hr⟩ = src.slice ⟨lo, mid, hl⟩ ++ src.slice ⟨mid, hi, hr⟩ := by
  simp only [slice]
  rw [place_of_nonneg (by omega), place_of_nonneg (by omega), place_of_nonneg (by omega)]
  have hmid : (mid - src.start).toNat = (lo - src.start).toNat + (mid - lo).toNat := by omega
  have hhi : (hi - src.start).toNat = (lo - src.start).toNat + (mid - lo).toNat + (hi - mid).toNat := by omega
  rw [hhi, hmid, ← List.drop_drop, Nat.add_sub_cancel_left, Nat.add_sub_cancel_left, Nat.add_assoc,
    Nat.add_sub_cancel_left, List.take_add]

/-- A token is written with the text of its lexeme, somewhere in the line. -/
theorem exists_lexeme (h : src.read names = (.ok e, names')) {t : PlacedToken} (ht : t ∈ (src.tokens names).1) :
    src.span.contains t.span = true ∧ t.span.lo < t.span.hi ∧
      ∃ rest, Lexeme.Cut t.token.shape (src.slice t.span) rest := by
  obtain ⟨x, -, hmem, hspan, hkey⟩ := exists_of_forall₂_left (forall₂_lexemes (tokens_of_read h).1) ht
  obtain ⟨hcut, hslice, hin⟩ := cut_of_mem_lexemes hmem
  have hshape : t.token.shape = x.shape := (Prod.mk.inj hkey).1
  rw [hspan, hshape, hslice]
  exact ⟨hin, lo_lt_hi_of_mem_lexemes hmem, _, hcut⟩

/-- A group is written from its opener to its closer. -/
theorem group_written (h : src.read names = (.ok e, names')) {span : Span} {b : Bracket} {items : List Expr}
    (hn : Expr.group span b items ∈ e.nodes) :
    src.span.contains span = true ∧ span.lo < span.hi ∧ ∃ inside, src.slice span = b.opener :: (inside ++ [b.closer]) := by
  obtain ⟨us, hus, hin⟩ := Expr.exists_segment (tokens_of_read h).2 hn
  obtain ⟨vs, -, rfl⟩ := Option.map_eq_some_iff.mp hus
  have hordered := (layout_tokens src names).ordered.sublist hin.sublist
  have hroom : span.lo + 1 ≤ span.hi - 1 :=
    (List.pairwise_cons.mp hordered).1 _ (List.mem_append_right _ List.mem_cons_self)
  have hlast : (b.last span).span = ⟨span.hi - 1, span.hi, by omega⟩ := by simp [Bracket.last, Span.ofLength]
  have hopen : b.first span ∈ (src.tokens names).1 := hin.subset List.mem_cons_self
  have hclose : b.last span ∈ (src.tokens names).1 :=
    hin.subset (List.mem_cons_of_mem _ (List.mem_append_right _ List.mem_cons_self))
  obtain ⟨hstart, -, _, hcut⟩ := exists_lexeme h hopen
  obtain ⟨hend, -, _, hcut'⟩ := exists_lexeme h hclose
  rw [hlast] at hend hcut'
  have hlo : src.start ≤ span.lo := (of_decide_eq_true hstart).1
  have hhi : span.hi ≤ src.span.hi := (of_decide_eq_true hend).2
  have hopener : src.slice ⟨span.lo, span.lo + 1, by omega⟩ = [b.opener] := Expr.text_of_cut_opener hcut
  have hcloser : src.slice ⟨span.hi - 1, span.hi, by omega⟩ = [b.closer] := Expr.text_of_cut_closer hcut'
  refine ⟨decide_eq_true ⟨hlo, hhi⟩, by omega, src.slice ⟨span.lo + 1, span.hi - 1, hroom⟩, ?_⟩
  -- the slice falls apart after the opener and before the closer
  calc src.slice span
      = src.slice ⟨span.lo, span.lo + 1, by omega⟩ ++ src.slice ⟨span.lo + 1, span.hi, by omega⟩ :=
        slice_append hlo _ _
    _ = [b.opener] ++ (src.slice ⟨span.lo + 1, span.hi - 1, hroom⟩ ++ [b.closer]) := by
        rw [hopener, ← hcloser, ← slice_append (by omega) hroom (by omega)]

theorem children_in_order (h : src.read names = (.ok e, names')) (hn : n ∈ e.nodes) :
    (∀ child ∈ n.children, n.span.lo + 1 ≤ child.span.lo ∧ child.span.hi ≤ n.span.hi - 1) ∧
      n.children.Pairwise fun child next => child.span.hi ≤ next.span.lo := by
  cases n with
  | atom span a => exact ⟨fun child hc => (nomatch hc), .nil⟩
  | group span b items =>
    obtain ⟨us, hus, hin⟩ := Expr.exists_segment (tokens_of_read h).2 hn
    have hordered := (layout_tokens src names).ordered.sublist hin.sublist
    obtain ⟨vs, hvs, rfl⟩ := Option.map_eq_some_iff.mp hus
    have hitems := (List.pairwise_append.mp (List.pairwise_cons.mp hordered).2).1
    exact ⟨fun child hc => Expr.between_brackets hus hordered hc, Expr.pairwise_siblings hvs hitems⟩

/-! ## Spans are faithful -/

/-- What the span of a node says. The text of a group has its brackets at its ends and
    its items between them, in order and apart; and the text of a node that is no
    operator, as a line of its own at its place, is read as that node. -/
structure Faithful (src : Source) (table : NameTable) (n : Expr) : Prop where
  inside : src.span.contains n.span = true
  nonempty : n.span.lo < n.span.hi
  bracketed : ∀ span b items, n = .group span b items →
    ∃ inside, src.slice span = b.opener :: (inside ++ [b.closer])
  within : ∀ child ∈ n.children, n.span.lo + 1 ≤ child.span.lo ∧ child.span.hi ≤ n.span.hi - 1
  apart : n.children.Pairwise fun child next => child.span.hi ≤ next.span.lo
  rereads : n.isOperator = false → ∀ later, table.Grows later → (src.fragment n.span).read later = (.ok n, later)

/-- For every line that is read as an expression, at any start and with any names, the
    spans of all nodes are faithful. -/
theorem spans_are_faithful (src : Source) (names : NameTable) (e : Expr) (h : (src.read names).1 = .ok e) :
    ∀ n ∈ e.nodes, src.Faithful (src.read names).2 n := by
  intro n hn
  have h : src.read names = (.ok e, (src.read names).2) := Prod.ext h rfl
  obtain ⟨hinside, hnonempty⟩ : src.span.contains n.span = true ∧ n.span.lo < n.span.hi := by
    cases n with
    | atom span a =>
      obtain ⟨us, hus, hin⟩ := Expr.exists_segment (tokens_of_read h).2 hn
      obtain ⟨t, -, rfl⟩ := Option.map_eq_some_iff.mp hus
      obtain ⟨hinside, hnonempty, -⟩ := exists_lexeme h (hin.subset List.mem_cons_self)
      exact ⟨hinside, hnonempty⟩
    | group span b items =>
      obtain ⟨hinside, hnonempty, -⟩ := group_written h hn
      exact ⟨hinside, hnonempty⟩
  obtain ⟨hwithin, hapart⟩ := children_in_order h hn
  refine ⟨hinside, hnonempty, ?_, hwithin, hapart, fun hop later hlater => read_fragment h hn hop hlater⟩
  rintro span b items rfl
  obtain ⟨-, -, hwritten⟩ := group_written h hn
  exact hwritten

/-- A vector, a string with a bracket in it and a run that ends at a bracket, on a line
    that starts elsewhere. -/
theorem spans_are_faithful_off_start :
    let src : Source := ⟨" (f[x \")\"]y)".toList, -4⟩
    ∃ e, (src.read .empty).1 = .ok e ∧ e.print src = "(f [x \")\"] y)".toList ∧
      ∀ n ∈ e.nodes, src.Faithful (src.read .empty).2 n := by
  intro src
  have hprint : ((⟨" (f[x \")\"]y)".toList, -4⟩ : Source).read .empty).1.toOption.map
      (·.print ⟨" (f[x \")\"]y)".toList, -4⟩) = some "(f [x \")\"] y)".toList := by
    decide +kernel
  obtain ⟨e, he, hprint⟩ := Option.map_eq_some_iff.mp hprint
  have hread : (src.read .empty).1 = .ok e := eq_ok_of_toOption he
  exact ⟨e, hread, hprint, spans_are_faithful src .empty e hread⟩

end Source

end LineLisp
