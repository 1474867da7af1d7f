import LineCalc.Proofs.LongestMatch
import LineCalc.Proofs.PrintedTokens

/-!
Two texts with blanks between them. No spelling reaches over a blank, so what is found in the first text stays as it is
whatever stands behind the blanks: a longest spelling is the longest one still, and where nothing starts nothing does
(`SpelledBy.prefix_of_append`). The second text is cut as it is by itself, from the place that reading comes to. So the
scan of the whole is that of the first text and, unless this fails, that of the second one behind it (`scan_apart`).
-/

namespace LineCalc

/-- Where reading the text from its start comes to `p`, reading it from `q` comes to `p'`. -/
def Position.ReadFrom (q : Position) (text : List Char) (p p' : Position) : Prop :=
  ∃ cs, cs <+: text ∧ p = ({} : Position).advanceAll cs ∧ p' = q.advanceAll cs

theorem Position.readFrom_advanceAll (q : Position) {text cs rest : List Char} (h : text = cs ++ rest) :
    q.ReadFrom text (({} : Position).advanceAll cs) (q.advanceAll cs) :=
  ⟨cs, h ▸ List.prefix_append .., rfl, rfl⟩

structure Span.ReadFrom (q : Position) (text : List Char) (s s' : Span) : Prop where
  start : Position.ReadFrom q text s.start s'.start
  stop : Position.ReadFrom q text s.stop s'.stop

/-- The lexeme of a text, at its place in the text that is read from `q`. -/
structure Lexeme.ReadFrom (q : Position) (text : List Char) (l l' : Lexeme) : Prop where
  value_eq : l'.value = l.value
  span : l.span.ReadFrom q text l'.span

namespace Token

variable {p q r : Position} {t : Token} {c : Char} {cs ds es gap piece text : List Char} {ks ls : List Lexeme}

/-! ### In front of a blank -/

/-- What is spelled at the start of a text lies in front of the first blank. -/
theorem SpelledBy.prefix_of_append (h : t.SpelledBy piece) (hstarts : piece <+: cs ++ ds)
    (hds : ∀ c ∈ ds.head?, Text.isBlank c = true) : piece <+: cs := by
  obtain hle | ⟨more, rfl⟩ := List.prefix_or_prefix_of_prefix hstarts (List.prefix_append cs ds)
  · exact hle
  cases more with
  | nil => rw [List.append_nil]
  | cons c more =>
      obtain ⟨behind, rfl⟩ := (List.prefix_append_right_inj cs).mp hstarts
      have hblank := hds c rfl
      rw [h.isBlank_eq_false c (by simp)] at hblank
      cases hblank

theorem IsLongest.append (h : t.IsLongest piece cs) (hds : ∀ c ∈ ds.head?, Text.isBlank c = true) :
    t.IsLongest piece (cs ++ ds) where
  startsWith := h.startsWith.trans (List.prefix_append cs ds)
  spelledBy := h.spelledBy
  longest u longer hlonger hu := h.longest u longer (hu.prefix_of_append hlonger hds) hu

theorem IsStuck.append (h : IsStuck c cs) (hds : ∀ c ∈ ds.head?, Text.isBlank c = true) : IsStuck c (cs ++ ds) := by
  refine ⟨h.1, fun t piece hstarts ht => ?_⟩
  rw [← List.cons_append] at hstarts
  exact h.2 t piece (ht.prefix_of_append hstarts hds) ht

namespace Cuts

/-- A text is cut in the same way when a blank stands behind it. -/
theorem appendBlank (h : Cuts p cs ls q ds) (hes : ∀ c ∈ es.head?, Text.isBlank c = true) :
    Cuts p (cs ++ es) ls q (ds ++ es) := by
  induction h with
  | here => exact .here
  | skip hspace _ ih => exact .skip hspace ih
  | take hlongest _ ih =>
      have hlonger := hlongest.append hes
      rw [List.append_assoc] at hlonger ⊢
      exact .take hlonger ih

/-- A text of which `done` has been cut is cut in the same way when it is read from `q`. -/
theorem readFrom (h : Cuts p cs ls r es) (q : Position) (done : List Char) (htext : text = done ++ cs)
    (hp : p = ({} : Position).advanceAll done) :
    ∃ ls' more, List.Forall₂ (Lexeme.ReadFrom q text) ls ls' ∧ cs = more ++ es ∧
      r = ({} : Position).advanceAll (done ++ more) ∧
      Cuts (q.advanceAll done) cs ls' (q.advanceAll (done ++ more)) es := by
  induction h generalizing done with
  | here =>
      refine ⟨[], [], .nil, rfl, ?_, ?_⟩
      · rw [List.append_nil, hp]
      · rw [List.append_nil]
        exact .here
  | @skip p c cs ls r es hspace _ ih =>
      have hdone : p.advance c = ({} : Position).advanceAll (done ++ [c]) := by
        rw [Position.advanceAll_append, ← hp]
        rfl
      obtain ⟨ls', more, hls, rfl, hr, hcuts⟩ := ih _ (by simpa using htext) hdone
      rw [List.append_assoc] at hr hcuts
      rw [Position.advanceAll_append] at hcuts
      exact ⟨ls', c :: more, hls, rfl, hr, .skip hspace hcuts⟩
  | @take p t piece cs ls r es hlongest _ ih =>
      have hdone : p.advanceAll piece = ({} : Position).advanceAll (done ++ piece) := by
        rw [Position.advanceAll_append, hp]
      have htext' : text = done ++ piece ++ cs := by rw [htext, List.append_assoc]
      have hstart := q.readFrom_advanceAll htext
      have hstop := q.readFrom_advanceAll htext'
      rw [← hp] at hstart
      rw [← hdone, Position.advanceAll_append] at hstop
      obtain ⟨ls', more, hls, rfl, hr, hcuts⟩ := ih _ htext' hdone
      rw [List.append_assoc] at hr hcuts
      rw [Position.advanceAll_append] at hcuts
      have hhead : Lexeme.ReadFrom q text ⟨t, p, p.advanceAll piece⟩
          ⟨t, q.advanceAll done, (q.advanceAll done).advanceAll piece⟩ := ⟨rfl, hstart, hstop⟩
      exact ⟨_, piece ++ more, .cons hhead hls, (List.append_assoc ..).symm, hr, .take hlongest hcuts⟩

/-- The first text to its end, the blanks behind it, and the second text as far as it is cut. -/
theorem apart (ha : Cuts p cs ks q []) (hgap : ∀ c ∈ (gap ++ ds).head?, Text.isBlank c = true)
    (hspace : ∀ c ∈ gap, IsSpace c) (hb : Cuts {} ds ls r es) :
    let stop := p.advanceAll (cs ++ gap)
    ∃ ls' more, List.Forall₂ (Lexeme.ReadFrom stop ds) ls ls' ∧ ds = more ++ es ∧
      r = ({} : Position).advanceAll more ∧
      Cuts p (cs ++ (gap ++ ds)) (ks ++ ls') (stop.advanceAll more) es := by
  intro stop
  obtain ⟨before, hbefore, hq, _⟩ := ha.of_append
  rw [List.append_nil] at hbefore
  have hstop : q.advanceAll gap = stop := by rw [hq, ← hbefore, ← Position.advanceAll_append]
  have hfirst := ha.appendBlank hgap
  rw [List.nil_append] at hfirst
  obtain ⟨ls', more, hls, hds, hr, hsecond⟩ := hb.readFrom stop [] rfl rfl
  refine ⟨ls', more, hls, hds, hr, hfirst.append (skipAll hspace ?_)⟩
  rw [hstop]
  exact hsecond

end Cuts

/-! ### The whole text -/

/-- Blanks keep two texts apart. If the first text does not scan, the two with spaces and tabs between them fail with
the same error. If only the second one does not, they fail with its error, in the place that reading comes to behind
the first text and the blanks. If both scan, the lexemes are those of the first text without the end token, and those
of the second one with the end token, in the places that reading comes to. -/
theorem scan_apart (start : Position) {a gap b : String} (hgap : gap ≠ "") (hspace : ∀ c ∈ gap.toList, IsSpace c) :
    let p : Position := { start with offset := 0 }
    let stop := p.advanceAll (a ++ gap).toList
    (∀ e, scan start a = .error e → scan start (a ++ gap ++ b) = .error e) ∧
      (∀ ks e, scan start a = .ok ks → scan {} b = .error e →
        ∃ span, e.span.ReadFrom stop b.toList span ∧ scan start (a ++ gap ++ b) = .error ⟨e.cause, span⟩) ∧
      ∀ ks ls, scan start a = .ok ks → scan {} b = .ok ls →
        ∃ before ls', ks = before ++ [⟨.eof, .emptyAt (p.advanceAll a.toList)⟩] ∧
          List.Forall₂ (Lexeme.ReadFrom stop b.toList) ls ls' ∧
          scan start (a ++ gap ++ b) = .ok (before ++ ls') := by
  intro p stop
  have htext : (a ++ gap ++ b).toList = a.toList ++ (gap.toList ++ b.toList) := by simp
  have hblank : ∀ c ∈ (gap.toList ++ b.toList).head?, Text.isBlank c = true := by
    intro c hc
    rw [List.head?_append_of_ne_nil _ (by simpa using hgap)] at hc
    exact (hspace c (List.mem_of_mem_head? hc)).isBlank
  have hstop : (a ++ gap).toList = a.toList ++ gap.toList := String.toList_append
  refine ⟨?_, ?_, ?_⟩
  · intro e he
    obtain ⟨ls, q, c, cs, hcuts, hstuck, rfl⟩ := scan_eq_error_iff.mp he
    have hall := hcuts.appendBlank hblank
    rw [← htext] at hall
    exact scan_eq_error_iff.mpr ⟨_, _, _, _, hall, hstuck.append hblank, rfl⟩
  · intro ks e hks he
    obtain ⟨before, q, ha, rfl⟩ := scan_eq_ok_iff.mp hks
    obtain ⟨ls, r, c, cs, hb, hstuck, rfl⟩ := scan_eq_error_iff.mp he
    obtain ⟨ls', more, _, hmore, hr, hall⟩ := ha.apart hblank hspace hb
    rw [← htext, ← hstop] at hall
    have hstart := stop.readFrom_advanceAll hmore
    have hend := stop.readFrom_advanceAll (hmore.trans (List.append_cons more c cs))
    rw [← hr] at hstart
    rw [Position.advanceAll_append, Position.advanceAll_append, ← hr] at hend
    exact ⟨⟨_, _⟩, ⟨hstart, hend⟩, scan_eq_error_iff.mpr ⟨_, _, _, _, hall, hstuck, rfl⟩⟩
  · intro ks ls hks hls
    obtain ⟨before, q, ha, rfl⟩ := scan_eq_ok_iff.mp hks
    obtain ⟨ls, r, hb, rfl⟩ := scan_eq_ok_iff.mp hls
    obtain ⟨ls', more, hls', hmore, hr, hall⟩ := ha.apart hblank hspace hb
    rw [← hstop] at hls' hall
    rw [← htext] at hall
    have hend := stop.readFrom_advanceAll hmore
    rw [← hr] at hend
    refine ⟨before, ls' ++ [⟨.eof, .emptyAt (stop.advanceAll more)⟩], ?_, ?_, scan_eq_ok_iff.mpr ⟨_, _, hall, ?_⟩⟩
    · obtain ⟨_, htoEnd, rfl, _⟩ := ha.of_append
      rw [htoEnd, List.append_nil]
    · exact List.rel_append hls' (.cons ⟨rfl, hend, hend⟩ .nil)
    · rw [List.append_assoc]

/-- The second text starts with the equals sign that would make one token with the end of the first. -/
theorem scan_apart_equals :
    let ks : List Lexeme :=
      [⟨.identifier "x", ⟨0, 4, 0⟩, ⟨1, 4, 1⟩⟩, ⟨.equal, ⟨2, 4, 2⟩, ⟨3, 4, 3⟩⟩, ⟨.eof, ⟨3, 4, 3⟩, ⟨3, 4, 3⟩⟩]
    let ls : List Lexeme := [⟨.equal, ⟨0, 0, 0⟩, ⟨1, 0, 1⟩⟩, ⟨.eof, ⟨1, 0, 1⟩, ⟨1, 0, 1⟩⟩]
    let ls' : List Lexeme := [⟨.equal, ⟨5, 4, 5⟩, ⟨6, 4, 6⟩⟩, ⟨.eof, ⟨6, 4, 6⟩, ⟨6, 4, 6⟩⟩]
    " \t" ≠ "" ∧ (∀ c ∈ " \t".toList, IsSpace c) ∧ scan ⟨9, 4, 0⟩ "x =" = .ok ks ∧ scan {} "=" = .ok ls ∧
      List.Forall₂ (Lexeme.ReadFrom ⟨5, 4, 5⟩ ['=']) ls ls' ∧
      scan ⟨9, 4, 0⟩ ("x =" ++ " \t" ++ "=") = .ok (ks.dropLast ++ ls') := by
  intro ks ls ls'
  have hgap : " \t" ≠ "" := by decide
  have hspace : ∀ c ∈ " \t".toList, IsSpace c := by simp [IsSpace]
  have hks : scan ⟨9, 4, 0⟩ "x =" = .ok ks := by cbv
  have hls : scan {} "=" = .ok ls := by cbv
  have hscan : scan ⟨9, 4, 0⟩ ("x =" ++ " \t" ++ "=") = .ok (ks.dropLast ++ ls') := by cbv
  obtain ⟨_, _, hboth⟩ := scan_apart ⟨9, 4, 0⟩ hgap hspace
  obtain ⟨before, ls'', hbefore, hplaces, hall⟩ := hboth ks ls hks hls
  obtain rfl : ks.dropLast = before := by rw [hbefore, List.dropLast_concat]
  obtain rfl : ls'' = ls' := List.append_cancel_left (Except.ok.inj (hall.symm.trans hscan))
  exact ⟨hgap, hspace, hks, hls, hplaces, hscan⟩

end Token
end LineCalc
