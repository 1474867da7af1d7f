import LineCalc.Proofs.LexicalGrammar
import LineCalc.Text.Blank

/-!
Scanning against the spellings of tokens. A text is cut from left to right: a blank is skipped, and otherwise
the longest spelling is taken (`Cuts`). The scanner cuts every text so, to its end or to the first character
where no token starts (`scan_longest_match`). What it has cut does not depend on the text behind it, so the text
before that character can be scanned by itself.
-/

namespace LineCalc.Token

/-- The characters between tokens. -/
def IsSpace (c : Char) : Prop := c = ' ' ∨ c = '\t'

/-- Cutting the text `cs`, which starts at `p`, comes to `q`, where `ds` is left, and has the lexemes `ls`. -/
inductive Cuts : Position → List Char → List Lexeme → Position → List Char → Prop
  | here {p cs} : Cuts p cs [] p cs
  | skip {p c cs ls q ds} (hspace : IsSpace c) (hmore : Cuts (p.advance c) cs ls q ds) : Cuts p (c :: cs) ls q ds
  | take {p t piece cs ls q ds} (hlongest : t.IsLongest piece (piece ++ cs))
      (hmore : Cuts (p.advanceAll piece) cs ls q ds) :
      Cuts p (piece ++ cs) (⟨t, p, p.advanceAll piece⟩ :: ls) q ds

/-- The text can be cut no further, and is not at its end. -/
def IsStuck (c : Char) (cs : List Char) : Prop := ¬IsSpace c ∧ NoneStarts (c :: cs)

variable {p q : Position} {t : Token} {c : Char} {cs ds piece before : List Char} {ls : List Lexeme}

theorem IsSpace.isBlank (h : IsSpace c) : Text.isBlank c = true := by
  obtain rfl | rfl := h <;> rfl

theorem isBlank_eq_false_of_isWordChar (h : isWordChar c) : Text.isBlank c = false := by
  simp only [isWordChar, Char.isAlphanum, Char.isAlpha, Char.isUpper, Char.isLower, Char.isDigit, Bool.or_eq_true,
    Bool.and_eq_true, decide_eq_true_eq, beq_iff_eq, ge_iff_le, UInt32.le_iff_toNat_le, Char.ext_iff,
    ← UInt32.toNat_inj] at h
  apply Text.isBlank_eq_false_of_printed <;> rw [Char.le_def, UInt32.le_iff_toNat_le] <;> simp at h ⊢ <;> omega

/-- No blank is part of a spelling, be it one that is skipped or not. -/
theorem SpelledBy.isBlank_eq_false (h : t.SpelledBy piece) : ∀ c ∈ piece, Text.isBlank c = false := by
  have hdigit : ∀ c : Char, c.isDigit → Text.isBlank c = false := by
    intro c hc
    exact isBlank_eq_false_of_isWordChar (by simp [isWordChar, Char.isAlphanum, hc])
  cases h with
  | operator ht =>
      have hall : ∀ t ∈ operators, t.spelling.toList.all (!Text.isBlank ·) := by decide
      simpa using hall _ ht
  | keyword k => cases k <;> simp [Keyword.spelling, Text.isBlank]
  | identifier hfirst hmore =>
      refine List.forall_mem_cons.mpr ⟨?_, fun d hd => ?_⟩
      · exact isBlank_eq_false_of_isWordChar (by simp [isWordChar, Char.isAlphanum, hfirst])
      · exact isBlank_eq_false_of_isWordChar (by simpa [isWordChar] using hmore d hd)
  | integer hdigits | large hdigits => exact fun c hc => hdigit c (hdigits.2 c hc)
  | point hwhole hfraction =>
      intro c hc
      obtain hc | hc | hc := List.mem_append.mp hc |>.imp_right List.mem_cons.mp
      · exact hdigit c (hwhole c hc)
      · rw [hc]
        rfl
      · exact hdigit c (hfraction c hc)

theorem SpelledBy.not_isSpace (h : t.SpelledBy (c :: cs)) : ¬IsSpace c := by
  intro hspace
  have hblank := h.isBlank_eq_false c List.mem_cons_self
  rw [hspace.isBlank] at hblank
  cases hblank

/-! ### One step -/

theorem munch_of_isSpace (h : IsSpace c) (cs : List Char) : munch c cs = .ok (none, 0) := by
  obtain rfl | rfl := h <;> rfl

theorem munch_of_isLongest (h : t.IsLongest piece (c :: cs)) :
    ∃ n, munch c cs = .ok (some t, n) ∧ c :: cs.take n = piece := by
  have htake := toTake_munch c cs
  rcases hmunch : munch c cs with cause | ⟨_ | u, n⟩ <;> rw [hmunch] at htake
  · exact absurd h.spelledBy (htake.2.1 t piece h.startsWith)
  · obtain rfl | ⟨ds, rfl, _⟩ := List.prefix_cons_iff.mp h.startsWith
    · exact absurd rfl h.spelledBy.ne_nil
    · exact absurd htake.1 h.spelledBy.not_isSpace
  · obtain ⟨rfl, rfl⟩ := h.unique htake
    exact ⟨n, rfl, rfl⟩

theorem munch_of_isStuck (h : IsStuck c cs) : munch c cs = .error (if c = '!' then .bangAlone else .illegal c) := by
  have htake := toTake_munch c cs
  rcases hmunch : munch c cs with cause | ⟨_ | u, n⟩ <;> rw [hmunch] at htake
  · rw [htake.2.2]
  · exact absurd htake.1 h.1
  · exact absurd htake.spelledBy (h.2 u _ htake.startsWith)

theorem scanFrom_nil (p : Position) : scanFrom p [] = .ok [⟨.eof, .emptyAt p⟩] := by
  rw [scanFrom]

theorem scanFrom_of_isSpace (h : IsSpace c) (p : Position) (cs : List Char) :
    scanFrom p (c :: cs) = scanFrom (p.advance c) cs := by
  rw [scanFrom, munch_of_isSpace h]
  simp only [List.take_zero, List.drop_zero, Position.advanceAll_nil]
  split <;> simp only [*]

theorem scanFrom_of_isLongest (h : t.IsLongest piece (piece ++ cs)) (p : Position) :
    scanFrom p (piece ++ cs) = (scanFrom (p.advanceAll piece) cs).map (⟨t, p, p.advanceAll piece⟩ :: ·) := by
  obtain ⟨c, ds, rfl⟩ := List.exists_cons_of_ne_nil h.spelledBy.ne_nil
  rw [List.cons_append] at h ⊢
  obtain ⟨n, hmunch, hn⟩ := munch_of_isLongest h
  rw [List.cons.injEq] at hn
  have hsplit : (ds ++ cs).take n ++ (ds ++ cs).drop n = ds ++ cs := List.take_append_drop n _
  rw [hn.2] at hsplit
  rw [scanFrom, hmunch]
  simp only [List.append_cancel_left hsplit, hn.2, Position.advanceAll_cons]
  split <;> simp only [*] <;> rfl

theorem scanFrom_of_isStuck (h : IsStuck c cs) (p : Position) :
    scanFrom p (c :: cs) = .error ⟨if c = '!' then .bangAlone else .illegal c, p, p.advance c⟩ := by
  rw [scanFrom, munch_of_isStuck h]

/-! ### Whole texts -/

namespace Cuts

/-- The scanner goes on from where the text has been cut. -/
theorem scanFrom_eq (h : Cuts p cs ls q ds) : scanFrom p cs = (scanFrom q ds).map (ls ++ ·) := by
  induction h with
  | @here p cs => cases hscan : scanFrom p cs <;> rfl
  | skip hspace _ ih => rw [scanFrom_of_isSpace hspace, ih]
  | @take p t piece cs ls q ds hlongest _ ih =>
      rw [scanFrom_of_isLongest hlongest, ih]
      cases scanFrom q ds <;> rfl

theorem of_toEnd (h : Cuts p cs ls q []) : scanFrom p cs = .ok (ls ++ [⟨.eof, .emptyAt q⟩]) := by
  rw [h.scanFrom_eq, scanFrom_nil]
  rfl

theorem of_isStuck (h : Cuts p cs ls q (c :: ds)) (hstuck : IsStuck c ds) :
    scanFrom p cs = .error ⟨if c = '!' then .bangAlone else .illegal c, q, q.advance c⟩ := by
  rw [h.scanFrom_eq, scanFrom_of_isStuck hstuck]
  rfl

/-- Every text can be cut to its end, or to a place where it is stuck. -/
theorem total (p : Position) (cs : List Char) :
    ∃ ls q ds, Cuts p cs ls q ds ∧ ∀ c es, ds = c :: es → IsStuck c es := by
  match cs with
  | [] => exact ⟨[], p, [], .here, nofun⟩
  | c :: cs =>
      have htake := toTake_munch c cs
      generalize munch c cs = taken at htake
      rcases taken with cause | ⟨_ | t, n⟩
      · refine ⟨[], p, c :: cs, .here, ?_⟩
        rintro _ _ ⟨⟩
        exact ⟨htake.1, htake.2.1⟩
      · obtain ⟨ls, q, ds, hcuts, hend⟩ := total (p.advance c) cs
        exact ⟨ls, q, ds, .skip htake.1 hcuts, hend⟩
      · have hsplit : c :: cs = (c :: cs.take n) ++ cs.drop n := by simp
        obtain ⟨ls, q, ds, hcuts, hend⟩ := total (p.advanceAll (c :: cs.take n)) (cs.drop n)
        rw [ToTake, hsplit] at htake
        rw [hsplit]
        exact ⟨_, q, ds, .take htake hcuts, hend⟩
termination_by cs.length
decreasing_by all_goals simp only [List.length_drop, List.length_cons]; omega

/-- What has been cut is a part of the text, and is cut in the same way when nothing stands behind it. -/
theorem of_append (h : Cuts p cs ls q ds) :
    ∃ before, cs = before ++ ds ∧ q = p.advanceAll before ∧ Cuts p before ls q [] := by
  induction h with
  | here => exact ⟨[], rfl, rfl, .here⟩
  | @skip p c cs ls q ds hspace _ ih =>
      obtain ⟨before, rfl, rfl, hbefore⟩ := ih
      exact ⟨c :: before, rfl, rfl, .skip hspace hbefore⟩
  | @take p t piece cs ls q ds hlongest _ ih =>
      obtain ⟨before, rfl, rfl, hbefore⟩ := ih
      refine ⟨piece ++ before, (List.append_assoc _ _ _).symm, (Position.advanceAll_append _ _ _).symm, ?_⟩
      refine .take ⟨List.prefix_append _ _, hlongest.spelledBy, ?_⟩ hbefore
      intro u es hes hu
      apply hlongest.longest u es _ hu
      rw [← List.append_assoc]
      exact hes.trans (List.prefix_append _ _)

end Cuts

section

variable {start : Position} {text : String}

theorem scan_eq_ok_iff {lexemes : List Lexeme} : scan start text = .ok lexemes ↔
    ∃ ls q, Cuts { start with offset := 0 } text.toList ls q [] ∧ lexemes = ls ++ [⟨.eof, .emptyAt q⟩] := by
  constructor
  · intro h
    obtain ⟨ls, q, ds, hcuts, hend⟩ := Cuts.total { start with offset := 0 } text.toList
    cases ds with
    | nil => exact ⟨ls, q, hcuts, Except.ok.inj (h.symm.trans hcuts.of_toEnd)⟩
    | cons c es => cases h.symm.trans (hcuts.of_isStuck (hend c es rfl))
  · rintro ⟨ls, q, hcuts, rfl⟩
    exact hcuts.of_toEnd

theorem scan_eq_error_iff {e : ScanError} : scan start text = .error e ↔
    ∃ ls q c cs, Cuts { start with offset := 0 } text.toList ls q (c :: cs) ∧ IsStuck c cs ∧
      e = ⟨if c = '!' then .bangAlone else .illegal c, q, q.advance c⟩ := by
  constructor
  · intro h
    obtain ⟨ls, q, ds, hcuts, hend⟩ := Cuts.total { start with offset := 0 } text.toList
    cases ds with
    | nil => cases h.symm.trans hcuts.of_toEnd
    | cons c es =>
        have hstuck := hend c es rfl
        exact ⟨ls, q, c, es, hcuts, hstuck, Except.error.inj (h.symm.trans (hcuts.of_isStuck hstuck))⟩
  · rintro ⟨ls, q, c, es, hcuts, hstuck, rfl⟩
    exact hcuts.of_isStuck hstuck

end

/-- Scanning cuts every text into the longest spellings, from left to right. It succeeds exactly if the text can
be cut to its end, and returns what has been cut and the end token. Otherwise it fails at the first place where
no token starts, with a span of one character and the exclamation mark told from all others. Wherever the text
has been cut to, the part before that place scans to the same lexemes by itself. -/
theorem scan_longest_match (start : Position) (text : String) :
    let p : Position := { start with offset := 0 }
    (∀ lexemes, scan start text = .ok lexemes ↔
      ∃ ls q, Cuts p text.toList ls q [] ∧ lexemes = ls ++ [⟨.eof, .emptyAt q⟩]) ∧
    (∀ e, scan start text = .error e ↔
      ∃ ls q c cs, Cuts p text.toList ls q (c :: cs) ∧ IsStuck c cs ∧
        e = ⟨if c = '!' then .bangAlone else .illegal c, q, q.advance c⟩) ∧
    (∀ ls q cs, Cuts p text.toList ls q cs →
      ∃ before, text.toList = before ++ cs ∧ q = p.advanceAll before ∧
        scan start (String.ofList before) = .ok (ls ++ [⟨.eof, .emptyAt q⟩])) := by
  intro p
  refine ⟨fun lexemes => scan_eq_ok_iff, fun e => scan_eq_error_iff, ?_⟩
  intro ls q cs hcuts
  obtain ⟨before, htext, hq, hbefore⟩ := hcuts.of_append
  refine ⟨before, htext, hq, ?_⟩
  rw [scan, String.toList_ofList]
  exact hbefore.of_toEnd

theorem scan_longest_match_bang :
    let e : ScanError := ⟨.bangAlone, ⟨3, 0, 3⟩, ⟨4, 0, 4⟩⟩
    scan {} "x =!" = .error e ∧
      ∃ ls c cs before, Cuts {} "x =!".toList ls e.span.start (c :: cs) ∧ IsStuck c cs ∧
        "x =!".toList = before ++ c :: cs ∧
        scan {} (String.ofList before) = .ok (ls ++ [⟨.eof, .emptyAt e.span.start⟩]) := by
  intro e
  have hscan : scan {} "x =!" = .error e := by cbv
  obtain ⟨_, herror, hbefore⟩ := scan_longest_match {} "x =!"
  obtain ⟨ls, q, c, cs, hcuts, hstuck, he⟩ := (herror e).mp hscan
  obtain ⟨before, htext, _, hscan'⟩ := hbefore ls q (c :: cs) hcuts
  have hq : e.span.start = q := congrArg (·.span.start) he
  rw [hq]
  exact ⟨hscan, ls, c, cs, before, hcuts, hstuck, htext, hscan'⟩

end LineCalc.Token
