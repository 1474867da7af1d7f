import LineCalc.Proofs.LongestMatch
import LineCalc.Text.Bytes

/-!
Where the lexemes of a text stand. They stand in the order of the text and do not overlap, and only blanks lie
between them. Each span marks a part of the text, by byte offsets that are places between characters and by the
positions that reading up to there comes to, and that part spells the token (`lexemes_tile_text`).
-/

namespace LineCalc

theorem Position.offset_advanceAll (p : Position) (cs : List Char) :
    (p.advanceAll cs).offset = p.offset + Text.byteLength cs := by
  induction cs generalizing p with
  | nil => rfl
  | cons c cs ih => rw [advanceAll_cons, ih, offset_advance, Text.byteLength_cons, Nat.add_assoc]

namespace Text

theorem byteLength_pos {cs : List Char} (h : cs ≠ []) : 0 < byteLength cs := by
  obtain ⟨c, cs, rfl⟩ := List.exists_cons_of_ne_nil h
  rw [byteLength_cons]
  exact Nat.add_pos_left c.utf8Size_pos _

theorem size_utf8Encode (cs : List Char) : cs.utf8Encode.size = byteLength cs := by
  induction cs with
  | nil => rfl
  | cons c cs ih =>
      rw [List.utf8Encode_cons, ByteArray.size_append, ih, byteLength_cons, List.utf8Encode_singleton,
        List.size_toByteArray, String.length_utf8EncodeChar]

theorem byteLength_toList (text : String) : byteLength text.toList = text.utf8ByteSize := by
  rw [← size_utf8Encode, String.utf8Encode_toList, String.size_toByteArray]

end Text

namespace Span

/-- The span marks the part `piece` of the text, which stands behind `before`. Both offsets are places in the text,
and both positions are what reading from `p` up to there comes to. -/
structure Marks (s : Span) (p : Position) (text before piece : List Char) : Prop where
  startsWith : before ++ piece <+: text
  start_eq : s.start = p.advanceAll before
  stop_eq : s.stop = p.advanceAll (before ++ piece)
  start_place : Text.takeBytes? s.start.offset text = some before
  stop_place : Text.takeBytes? s.stop.offset text = some (before ++ piece)

/-- The byte at the offset belongs to the span. -/
def Holds (s : Span) (offset : Nat) : Prop := s.start.offset ≤ offset ∧ offset < s.stop.offset

theorem marks_advanceAll {p : Position} (hp : p.offset = 0) (before piece after : List Char) :
    Marks ⟨p.advanceAll before, p.advanceAll (before ++ piece)⟩ p (before ++ (piece ++ after)) before piece where
  startsWith := ⟨after, List.append_assoc _ _ _⟩
  start_eq := rfl
  stop_eq := rfl
  start_place := by
    rw [Position.offset_advanceAll, hp, Nat.zero_add]
    exact Text.takeBytes?_append _ _
  stop_place := by
    rw [Position.offset_advanceAll, hp, Nat.zero_add, ← List.append_assoc]
    exact Text.takeBytes?_append _ _

end Span

namespace Token

variable {p q : Position} {t : Token} {c : Char} {cs ds piece before after : List Char} {ls : List Lexeme}

theorem SpelledBy.ne_eof (h : t.SpelledBy cs) : t ≠ .eof := by
  rintro rfl
  cases h with
  | operator ht => simp [operators] at ht

namespace Cuts

/-- Each lexeme spells the part of the text that its span marks. -/
theorem spelledBy (h : Cuts p cs ls q ds) :
    ∀ l ∈ ls, ∃ before piece after, cs = before ++ (piece ++ after) ∧
      l.span = ⟨p.advanceAll before, p.advanceAll (before ++ piece)⟩ ∧ l.value.SpelledBy piece := by
  induction h with
  | here => exact nofun
  | @skip p c cs ls q ds _ _ ih =>
      intro l hl
      obtain ⟨before, piece, after, rfl, hspan, hspelling⟩ := ih l hl
      exact ⟨c :: before, piece, after, rfl, hspan, hspelling⟩
  | @take p t piece cs ls q ds hlongest _ ih =>
      intro l hl
      obtain rfl | hl := List.mem_cons.mp hl
      · exact ⟨[], piece, cs, rfl, rfl, hlongest.spelledBy⟩
      · obtain ⟨before, piece', after, rfl, hspan, hspelling⟩ := ih l hl
        refine ⟨piece ++ before, piece', after, (List.append_assoc _ _ _).symm, ?_, hspelling⟩
        rw [hspan, ← Position.advanceAll_append, ← Position.advanceAll_append, List.append_assoc]

theorem offset_le (h : Cuts p cs ls q ds) : ∀ l ∈ ls, p.offset ≤ l.span.start.offset := by
  intro l hl
  obtain ⟨before, piece, after, _, hspan, _⟩ := h.spelledBy l hl
  rw [hspan, Position.offset_advanceAll]
  exact Nat.le_add_right _ _

theorem stop_le_offset (h : Cuts p cs ls q ds) : ∀ l ∈ ls, l.span.stop.offset ≤ (p.advanceAll cs).offset := by
  intro l hl
  obtain ⟨before, piece, after, rfl, hspan, _⟩ := h.spelledBy l hl
  simp only [hspan, Position.offset_advanceAll, Text.byteLength_append]
  omega

theorem start_lt_stop (h : Cuts p cs ls q ds) : ∀ l ∈ ls, l.span.start.offset < l.span.stop.offset := by
  intro l hl
  obtain ⟨before, piece, after, _, hspan, hspelling⟩ := h.spelledBy l hl
  have hpos := Text.byteLength_pos hspelling.ne_nil
  rw [hspan, Position.offset_advanceAll, Position.offset_advanceAll, Text.byteLength_append]
  omega

theorem pairwise (h : Cuts p cs ls q ds) : ls.Pairwise fun k l => k.span.stop.offset ≤ l.span.start.offset := by
  induction h with
  | here => exact .nil
  | skip _ _ ih => exact ih
  | take _ hmore ih => exact .cons hmore.offset_le ih

/-- A character that belongs to no lexeme of a text that is cut to its end is a blank. -/
theorem isSpace_outside (h : Cuts p cs ls q ds) (hds : ds = []) (hcs : cs = before ++ c :: after)
    (houtside : ∀ l ∈ ls, ¬l.span.Holds (p.offset + Text.byteLength before)) : IsSpace c := by
  induction h generalizing before with
  | here =>
      subst hds
      simp at hcs
  | @skip p d cs ls q ds hspace _ ih =>
      cases before with
      | nil =>
          cases hcs
          exact hspace
      | cons e before =>
          cases hcs
          apply ih hds rfl
          rwa [Position.offset_advance, Nat.add_assoc, ← Text.byteLength_cons]
  | @take p t piece cs ls q ds _ _ ih =>
      rw [List.forall_mem_cons] at houtside
      obtain ⟨hfirst, hmore⟩ := houtside
      obtain ⟨es, rfl, rfl⟩ | ⟨es, rfl, hes⟩ := List.append_eq_append_iff.mp hcs
      · apply ih hds rfl
        rwa [Position.offset_advanceAll, Nat.add_assoc, ← Text.byteLength_append]
      · cases es with
        | nil =>
            have hnext : cs = [] ++ c :: after := hes.symm
            apply ih hds hnext
            rwa [Position.offset_advanceAll, List.append_nil, Text.byteLength_nil, Nat.add_zero]
        | cons d es =>
            -- the character lies in the piece that has been taken
            have hpos := d.utf8Size_pos
            refine absurd ⟨Nat.le_add_right _ _, ?_⟩ hfirst
            rw [Position.offset_advanceAll, Text.byteLength_append, Text.byteLength_cons]
            omega

end Cuts

/-- The lexemes of a text that scans, with the end token behind them, tile the text. All but the last one hold
some of it, and none is an end token; the last one stands behind the whole text. They stand in order and do not
overlap. What lies in none of them are blanks. Each marks a part of the text with its span, and the part spells
its token. -/
theorem lexemes_tile_text {start : Position} {text : String} {lexemes : List Lexeme}
    (h : scan start text = .ok lexemes) :
    let p : Position := { start with offset := 0 }
    (∃ ls, lexemes = ls ++ [⟨.eof, .emptyAt (p.advanceAll text.toList)⟩] ∧
      ∀ l ∈ ls, l.value ≠ .eof ∧ l.span.start.offset < l.span.stop.offset) ∧
    (p.advanceAll text.toList).offset = text.utf8ByteSize ∧
    lexemes.Pairwise (fun k l => k.span.stop.offset ≤ l.span.start.offset) ∧
    (∀ before c after, text.toList = before ++ c :: after →
      (∀ l ∈ lexemes, ¬l.span.Holds (Text.byteLength before)) → IsSpace c) ∧
    (∀ l ∈ lexemes, ∃ before piece, l.span.Marks p text.toList before piece ∧
      (l.value = .eof ∨ l.value.SpelledBy piece)) := by
  intro p
  obtain ⟨ls, q, hcuts, rfl⟩ := scan_eq_ok_iff.mp h
  obtain ⟨before, htext, rfl, _⟩ := hcuts.of_append
  rw [List.append_nil] at htext
  obtain rfl := htext
  have hstop : (p.advanceAll text.toList).offset = text.utf8ByteSize := by
    rw [Position.offset_advanceAll, Text.byteLength_toList, Nat.zero_add]
  refine ⟨⟨ls, rfl, fun l hl => ?_⟩, hstop, ?_, ?_, ?_⟩
  · obtain ⟨_, _, _, _, _, hspelling⟩ := hcuts.spelledBy l hl
    exact ⟨hspelling.ne_eof, hcuts.start_lt_stop l hl⟩
  · refine List.pairwise_append.mpr ⟨hcuts.pairwise, List.pairwise_singleton _ _, ?_⟩
    intro k hk l hl
    obtain rfl := List.mem_singleton.mp hl
    exact hcuts.stop_le_offset k hk
  · intro before c after hcs houtside
    refine hcuts.isSpace_outside rfl hcs (fun l hl => ?_)
    rw [Nat.zero_add]
    exact houtside l (List.mem_append_left _ hl)
  · intro l hl
    obtain hl | hl := List.mem_append.mp hl
    · obtain ⟨before, piece, after, htext, hspan, hspelling⟩ := hcuts.spelledBy l hl
      refine ⟨before, piece, ?_, .inr hspelling⟩
      rw [hspan, htext]
      exact Span.marks_advanceAll rfl before piece after
    · obtain rfl := List.mem_singleton.mp hl
      refine ⟨text.toList, [], ?_, .inl rfl⟩
      have hmarks := Span.marks_advanceAll (p := p) rfl text.toList [] []
      simp only [List.append_nil] at hmarks
      exact hmarks

theorem lexemes_tile_text_later :
    let lexemes : List Lexeme :=
      [⟨.identifier "x", ⟨0, 4, 2⟩, ⟨1, 4, 3⟩⟩, ⟨.lessEqual, ⟨2, 4, 4⟩, ⟨4, 4, 6⟩⟩,
        ⟨.number (.int 10), ⟨5, 4, 7⟩, ⟨8, 4, 10⟩⟩, ⟨.eof, ⟨9, 4, 11⟩, ⟨9, 4, 11⟩⟩]
    scan ⟨7, 4, 2⟩ "x <= 010 " = .ok lexemes ∧
      ∀ l ∈ lexemes, ∃ before piece, l.span.Marks ⟨0, 4, 2⟩ "x <= 010 ".toList before piece ∧
        (l.value = .eof ∨ l.value.SpelledBy piece) := by
  intro lexemes
  have hscan : scan ⟨7, 4, 2⟩ "x <= 010 " = .ok lexemes := by cbv
  obtain ⟨_, _, _, _, hmarks⟩ := lexemes_tile_text hscan
  exact ⟨hscan, hmarks⟩

end Token
end LineCalc
