import LineCalc.Proofs.ReportPlace

/-!
Where the parts of an expression stand in its text. The lexemes of a text that scans are passed in order while it is
read, and the expression keeps some of them, in the same order (`Expr.lexemes`). The spans depend on nothing else: the
ends of the lexemes below a node are a list of places in order, the node runs from the first of these places to the
last, and each part of the node has a stretch of the list of its own. So whenever two spans are joined, the first of
them starts no later than the second ends (`Expr.node_spans`).
-/

namespace LineCalc

/-! ### The order of places -/

namespace Position

variable {p q : Position} {cs : List Char} {qs : List Position}

theorem compare_eq (p q : Position) : compare p q =
    (compare p.offset q.offset).then ((compare p.line q.line).then ((compare p.column q.column).then .eq)) := rfl

theorem le_iff : p ≤ q ↔
    p.offset < q.offset ∨ p.offset = q.offset ∧ (p.line < q.line ∨ p.line = q.line ∧ p.column ≤ q.column) := by
  change (compare p q).isLE = true ↔ _
  rw [compare_eq, Ordering.isLE_then_iff_or, Ordering.isLE_then_iff_or, Ordering.isLE_then_iff_or]
  simp only [Std.compare_eq_lt, Std.compare_eq_iff_eq, Ordering.isLE_eq, and_true, Nat.le_iff_lt_or_eq]

theorem lt_of_offset_lt (h : p.offset < q.offset) : p < q := by
  change compare p q = .lt
  rw [compare_eq, Ordering.then_eq_lt]
  exact .inl (Nat.compare_eq_lt.mpr h)

theorem le_refl (p : Position) : p ≤ p := le_iff.mpr (.inr ⟨rfl, .inr ⟨rfl, Nat.le_refl _⟩⟩)

theorem offset_le_of_le (h : p ≤ q) : p.offset ≤ q.offset := by
  obtain h | ⟨h, _⟩ := le_iff.mp h
  · exact Nat.le_of_lt h
  · exact Nat.le_of_eq h

/-- Reading goes on to later places only. -/
theorem Visits.le (h : p.Visits cs qs) : ∀ q ∈ qs, p ≤ q := by
  induction h with
  | nil => exact nofun
  | mark _ ih => exact List.forall_mem_cons.mpr ⟨le_refl _, ih⟩
  | @advance p c _ _ _ ih =>
      intro q hq
      have hoffset : p.offset < q.offset := calc
        p.offset < p.offset + c.utf8Size := Nat.lt_add_of_pos_right c.utf8Size_pos
        _ = (p.advance c).offset := (offset_advance p c).symm
        _ ≤ q.offset := offset_le_of_le (ih q hq)
      exact le_iff.mpr (.inl hoffset)

theorem Visits.pairwise (h : p.Visits cs qs) : qs.Pairwise (· ≤ ·) := by
  induction h with
  | nil => exact .nil
  | mark hmore ih => exact .cons hmore.le ih
  | advance _ ih => exact ih

end Position

namespace Span

variable {a b : Span} {ps qs : List Position}

/-- The first span ends where the second one starts, or before. -/
def Before (a b : Span) : Prop := a.stop ≤ b.start

/-- The first span starts no earlier than the second one, and ends no later. -/
def Within (a b : Span) : Prop := b.start ≤ a.start ∧ a.stop ≤ b.stop

theorem before_of_pairwise (h : (ps ++ qs).Pairwise (· ≤ ·)) (ha : a.ends.Sublist ps) (hb : b.ends.Sublist qs) :
    a.Before b := by
  obtain ⟨_, _, hle⟩ := List.pairwise_append.mp h
  exact hle _ (ha.subset (List.mem_cons_of_mem _ List.mem_cons_self)) _ (hb.subset List.mem_cons_self)

end Span

/-! ### Lexemes in order -/

/-- No lexeme is empty, and the ends of the lexemes are places in order. -/
structure Lexeme.InOrder (ls : List Lexeme) : Prop where
  places_pairwise : (places ls).Pairwise (· ≤ ·)
  start_lt_stop : ∀ l ∈ ls, l.span.start.offset < l.span.stop.offset

theorem Lexeme.InOrder.pairwise {ls : List Lexeme} (h : InOrder ls) :
    ls.Pairwise fun k l => k.span.start < l.span.start ∧ k.span.Before l.span := by
  have hplaces := h.places_pairwise
  rw [places, List.pairwise_flatMap] at hplaces
  refine hplaces.2.imp_of_mem fun {k l} hk _ hends => ?_
  have hbefore : k.span.Before l.span := hends _ (List.mem_cons_of_mem _ List.mem_cons_self) _ List.mem_cons_self
  have hstart : k.span.start.offset < l.span.start.offset := calc
    k.span.start.offset < k.span.stop.offset := h.start_lt_stop k hk
    _ ≤ l.span.start.offset := Position.offset_le_of_le hbefore
  exact ⟨Position.lt_of_offset_lt hstart, hbefore⟩

/-- The lexemes of a text, and any of them that are kept. The end token is the only one that is empty. -/
theorem Token.inOrder_of_scan {start : Position} {text : String} {lexemes ls : List Lexeme}
    (h : scan start text = .ok lexemes) (hsub : ls.Sublist lexemes) (hls : ∀ l ∈ ls, l.value ≠ .eof) :
    Lexeme.InOrder ls := by
  obtain ⟨cut, q, hcuts, rfl⟩ := scan_eq_ok_iff.mp h
  have hend : q.Visits [] (Lexeme.places [⟨.eof, .emptyAt q⟩]) := .mark (.mark .nil)
  have hvisits := hcuts.visits hend
  rw [← Lexeme.places_append] at hvisits
  refine ⟨hvisits.pairwise.sublist (hsub.flatMap _), fun l hl => ?_⟩
  obtain hcut | hlast := List.mem_append.mp (hsub.subset hl)
  · exact hcuts.start_lt_stop l hcut
  · rw [List.mem_singleton.mp hlast] at hl
    exact absurd rfl (hls _ hl)

/-! ### Expressions in order -/

namespace Expr

variable {d e : Expr}

theorem exists_first (e : Expr) : ∃ l, e.lexemes.head? = some l ∧ e.start = l.span.start := by
  induction e with
  | number | name | assign | unary => exact ⟨_, rfl, rfl⟩
  | binary left op right ihleft _ =>
      obtain ⟨l, hl, hstart⟩ := ihleft
      refine ⟨l, ?_, hstart⟩
      rw [lexemes, List.head?_append, hl]
      rfl

theorem exists_last (e : Expr) : ∃ l, e.lexemes.getLast? = some l ∧ e.stop = l.span.stop := by
  induction e with
  | number | name => exact ⟨_, rfl, rfl⟩
  | assign x value ih | unary op operand ih =>
      obtain ⟨l, hl, hstop⟩ := ih
      refine ⟨l, ?_, hstop⟩
      rw [lexemes, List.getLast?_cons, hl]
      rfl
  | binary left op right _ ihright =>
      obtain ⟨l, hl, hstop⟩ := ihright
      refine ⟨l, ?_, hstop⟩
      rw [lexemes, List.getLast?_append, List.getLast?_cons, hl]
      rfl

theorem lexemes_sublist_of_mem (h : d ∈ e.preorder) : d.lexemes.Sublist e.lexemes := by
  induction e with
  | number | name => rw [List.mem_singleton.mp h]
  | assign x value ih | unary op operand ih =>
      obtain rfl | h := List.mem_cons.mp h
      · exact .refl _
      · exact .cons _ (ih h)
  | binary left op right ihleft ihright =>
      rw [preorder, List.mem_cons, List.mem_append] at h
      obtain rfl | h | h := h
      · exact .refl _
      · exact (ihleft h).trans (List.sublist_append_left _ _)
      · exact .trans (.cons _ (ihright h)) (List.sublist_append_right _ _)

theorem start_le (h : e.places.Pairwise (· ≤ ·)) : ∀ q ∈ e.places, e.start ≤ q := by
  obtain ⟨l, hl, hstart⟩ := e.exists_first
  obtain ⟨ls, hls⟩ := List.head?_eq_some_iff.mp hl
  rw [places_eq, hls, Lexeme.places_cons] at h ⊢
  rw [hstart]
  exact List.forall_mem_cons.mpr ⟨Position.le_refl _, (List.pairwise_cons.mp h).1⟩

theorem le_stop (h : e.places.Pairwise (· ≤ ·)) : ∀ q ∈ e.places, q ≤ e.stop := by
  obtain ⟨l, hl, hstop⟩ := e.exists_last
  obtain ⟨ls, hls⟩ := List.getLast?_eq_some_iff.mp hl
  have hplaces : e.places = Lexeme.places ls ++ [l.span.start] ++ [l.span.stop] := by
    rw [places_eq, hls, Lexeme.places_append, List.append_assoc]
    rfl
  rw [hplaces] at h ⊢
  rw [hstop]
  obtain ⟨_, _, hle⟩ := List.pairwise_append.mp h
  intro q hq
  obtain hq | hq := List.mem_append.mp hq
  · exact hle q hq _ List.mem_cons_self
  · rw [List.mem_singleton.mp hq]
    exact Position.le_refl _

theorem within_span {s : Span} (h : e.places.Pairwise (· ≤ ·)) (hs : s.ends.Sublist e.places) : s.Within e.span :=
  ⟨start_le h _ (hs.subset List.mem_cons_self), le_stop h _ (hs.subset (List.mem_cons_of_mem _ List.mem_cons_self))⟩

theorem start_le_stop (h : e.places.Pairwise (· ≤ ·)) : e.start ≤ e.stop :=
  le_stop h _ (e.ends_sublist_places.subset List.mem_cons_self)

/-- The spans that a node's span is joined from are in order, and so are those below. -/
theorem span?_eq_span (h : e.places.Pairwise (· ≤ ·)) : e.span? = some e.span := by
  have horder := start_le_stop h
  induction e with
  | number | name => rfl
  | assign x value ih | unary op operand ih =>
      have hvalue := (List.pairwise_append.mp h).2.1
      rw [span?, ih hvalue (start_le_stop hvalue)]
      exact if_pos horder
  | binary left op right ihleft ihright =>
      obtain ⟨hleft, hmore, _⟩ := List.pairwise_append.mp h
      have hright := (List.pairwise_append.mp hmore).2.1
      rw [span?, ihleft hleft (start_le_stop hleft), ihright hright (start_le_stop hright)]
      exact if_pos horder

/-- How an expression stands in its text: from the start of its first lexeme to the end of its last one, with every
lexeme and every part of it in between, the operands of an operation on either side of the operator. -/
structure WellPlaced (e : Expr) : Prop where
  span_eq : ∃ first last, e.lexemes.head? = some first ∧ e.lexemes.getLast? = some last ∧
    e.span = ⟨first.span.start, last.span.stop⟩
  lexeme_within : ∀ l ∈ e.lexemes, l.span.Within e.span
  part_within : ∀ d ∈ e.preorder, d.span.Within e.span
  operands_apart : ∀ left op right, e = binary left op right →
    left.span.Before op.span ∧ op.span.Before right.span ∧ left.span.Before right.span
  span?_eq : e.span? = some e.span

theorem wellPlaced_of_pairwise (h : e.places.Pairwise (· ≤ ·)) : e.WellPlaced where
  span_eq := by
    obtain ⟨first, hfirst, hstart⟩ := e.exists_first
    obtain ⟨last, hlast, hstop⟩ := e.exists_last
    refine ⟨first, last, hfirst, hlast, ?_⟩
    rw [span, hstart, hstop]
  lexeme_within := by
    intro l hl
    have hends := Lexeme.ends_sublist_places hl
    rw [← places_eq] at hends
    exact within_span h hends
  part_within := by
    intro d hd
    have hplaces : d.places.Sublist e.places := by
      rw [places_eq, places_eq]
      exact (lexemes_sublist_of_mem hd).flatMap _
    exact within_span h (d.ends_sublist_places.trans hplaces)
  operands_apart := by
    rintro left op right rfl
    have hmore := (List.pairwise_append.mp h).2.1
    have hop : op.span.ends.Sublist (op.span.ends ++ right.places) := List.sublist_append_left _ _
    have hright : right.span.ends.Sublist (op.span.ends ++ right.places) :=
      right.ends_sublist_places.trans (List.sublist_append_right _ _)
    refine ⟨?_, ?_, ?_⟩
    · exact Span.before_of_pairwise h left.ends_sublist_places hop
    · exact Span.before_of_pairwise hmore (.refl _) right.ends_sublist_places
    · exact Span.before_of_pairwise h left.ends_sublist_places hright
  span?_eq := span?_eq_span h

/-- An expression that is read from a text keeps some of its lexemes, one after the other and none of them empty. It
and all expressions in it stand where the lexemes do that they keep, and to compute their spans is only to join spans
that are in order. -/
theorem node_spans {start : Position} {text : String} {lexemes : List Lexeme} {limit : Nat}
    (hscan : Token.scan start text = .ok lexemes) (hread : ofLexemes? limit lexemes = .ok e) :
    e.lexemes.Sublist lexemes ∧
      (∀ l ∈ e.lexemes, l.span.start.offset < l.span.stop.offset) ∧
      (e.lexemes.Pairwise fun k l => k.span.start < l.span.start ∧ k.span.Before l.span) ∧
      ∀ d ∈ e.preorder, d.lexemes.Sublist e.lexemes ∧ d.WellPlaced := by
  obtain ⟨ls, rest, rfl, hderives⟩ := derives_of_ofLexemes? hread
  have hkept := hderives.lexemes_sublist
  have hsub : e.lexemes.Sublist (ls ++ rest) := hkept.trans (List.sublist_append_left _ _)
  have horder := Token.inOrder_of_scan hscan hsub fun l hl => hderives.value_ne_eof l (hkept.subset hl)
  refine ⟨hsub, horder.start_lt_stop, horder.pairwise, fun d hd => ?_⟩
  have hpart := lexemes_sublist_of_mem hd
  refine ⟨hpart, wellPlaced_of_pairwise ?_⟩
  rw [places_eq]
  exact horder.places_pairwise.sublist (hpart.flatMap _)

/-- The keyword, the equals sign and the parentheses are in no span. -/
theorem node_spans_assignment :
    let on (start stop : Nat) : Span := ⟨⟨start, 0, start⟩, ⟨stop, 0, stop⟩⟩
    let lexemes : List Lexeme :=
      [⟨.keyword .var, on 0 3⟩, ⟨.identifier "x", on 4 5⟩, ⟨.equal, on 6 7⟩, ⟨.leftParen, on 8 9⟩,
        ⟨.number (.int 1), on 9 10⟩, ⟨.plus, on 11 12⟩, ⟨.identifier "y", on 13 14⟩, ⟨.rightParen, on 14 15⟩,
        ⟨.eof, on 15 15⟩]
    let sum : Expr := .binary (.number ⟨.int 1, on 9 10⟩) ⟨.add, on 11 12⟩ (.name ⟨"y", on 13 14⟩)
    let e : Expr := .assign ⟨"x", on 4 5⟩ sum
    Token.scan {} "VAR x = (1 + y)" = .ok lexemes ∧ ofLexemes? 10 lexemes = .ok e ∧ e.lexemes.Sublist lexemes ∧
      e.span? = some (on 4 14) ∧ sum.span = on 9 14 ∧ sum.span.Within e.span := by
  intro on lexemes sum e
  have hscan : Token.scan {} "VAR x = (1 + y)" = .ok lexemes := by cbv
  have hread : ofLexemes? 10 lexemes = .ok e := by cbv
  obtain ⟨hkept, _, _, hparts⟩ := node_spans hscan hread
  obtain ⟨_, hplaced⟩ := hparts e List.mem_cons_self
  have hsum : sum ∈ e.preorder := List.mem_cons_of_mem _ List.mem_cons_self
  exact ⟨hscan, hread, hkept, hplaced.span?_eq, rfl, hplaced.part_within sum hsum⟩

end Expr
end LineCalc
