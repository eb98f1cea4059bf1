import Foolscap.Editor.Place
import Foolscap.Proofs.Tree.Readings

/-!
# Places and offsets

An editor and the parser count differently, but they mean the same places: the offset of the place
of a position is that of the position.
-/

namespace Foolscap

open List

/-- A text consists of whole lines. -/
def Text.WholeLines (t : Text) : Prop := t = [] ∨ ∃ u, t = u ++ [newline]

namespace Position.At

variable {src : Text} {p : Position}

/-- A position: the whole lines in front of it, and the part of its own line. -/
theorem split (h : p.At src) : ∃ front line rest, src = front ++ (line ++ rest) ∧
    front.WholeLines ∧ Text.newline ∉ line ∧
    p = ⟨front.length + line.length, front.count Text.newline + 1, line.length + 1⟩ := by
  obtain ⟨offset, row, column⟩ := p
  obtain ⟨hle, hline, start, hstart, hcolumn, hfirst, hnone⟩ := h
  dsimp only at *
  have hsplit : src.take offset = src.take start ++ (src.take offset).drop start := by
    conv_lhs => rw [← take_append_drop start (src.take offset)]
    rw [take_take, Nat.min_eq_left hstart]
  refine ⟨src.take start, (src.take offset).drop start, src.drop offset, ?_, ?_, hnone, ?_⟩
  · rw [← append_assoc, ← hsplit, take_append_drop]
  · cases start with
    | zero => exact .inl rfl
    | succ start =>
      have hnewline := hfirst.resolve_left nofun
      rw [Nat.add_sub_cancel] at hnewline
      exact .inr ⟨src.take start, by rw [take_add_one, hnewline]; rfl⟩
  · rw [hsplit, count_append, count_eq_zero.mpr hnone] at hline
    rw [length_drop, length_take_of_le hle, length_take_of_le (by omega), hline,
      hcolumn]
    congr 1 <;> omega

/-- A position is what counting up to it gives. -/
theorem eq_advance (h : p.At src) : p = start.advance (src.take p.offset) := by
  obtain ⟨front, line, rest, rfl, hfront, hnone, rfl⟩ := h.split
  dsimp only
  rw [← append_assoc, ← length_append, take_left, advance_append,
    advance_eq_forward hnone]
  have hrow := line_advance start front
  have hoffset := advance_offset start front
  have hcolumn : (start.advance front).column = 1 := by
    rcases hfront with rfl | ⟨u, rfl⟩
    · rfl
    · rw [advance_append, advance_cons, advance_nil, advanceByte, if_pos rfl]
  rw [forward, hrow, hoffset, hcolumn, length_append]
  simp only [start, Position.mk.injEq]
  omega

/-- A position further on in its line. -/
theorem forward (h : p.At src) {s : Text} (hs : s <+: src.drop p.offset)
    (hline : Text.newline ∉ s) : (p.forward s.length).At src := by
  obtain ⟨rest, hrest⟩ := hs
  have hsrc : src = src.take p.offset ++ s ++ rest := by
    rw [append_assoc, hrest, take_append_drop]
  have hplaced := at_advance (src.take p.offset ++ s) rest
  rwa [← hsrc, advance_append, ← h.eq_advance, advance_eq_forward hline] at hplaced

end Position.At

namespace Text

/-- The whole lines in front of a place. -/
theorem bytesBefore_lines {u : Text} (h : u.WholeLines) (t : Text) (c : Nat) :
    bytesBefore (u.count newline) c (u ++ t) = u.length + bytesBefore 0 c t := by
  rcases h with rfl | ⟨u, rfl⟩
  · exact (Nat.zero_add _).symm
  rw [count_append, count_singleton_self, append_assoc, length_append]
  induction u with
  | nil =>
    rw [nil_append, count_nil, singleton_append, bytesBefore, if_pos rfl]
    exact Nat.add_comm _ _
  | cons b u ih =>
    have hlines : (if b = newline then List.count newline (b :: u)
        else List.count newline (b :: u) + 1) = List.count newline u + 1 := by
      split
      · next hb => rw [hb, count_cons_self]
      · next hb => rw [count_cons_of_ne hb]
    rw [cons_append, bytesBefore, length_cons, hlines, ih, length_singleton]
    omega

/-- The part of a line in front of a place. -/
theorem bytesBefore_line {s : Text} (h : newline ∉ s) (t : Text) :
    bytesBefore 0 s.length (s ++ t) = s.length := by
  induction s with
  | nil => cases t <;> rfl
  | cons b s ih =>
    obtain ⟨hb, hs⟩ := not_or.mp (mt mem_cons.mpr h)
    rw [cons_append, length_cons, bytesBefore, if_neg (Ne.symm hb), ih hs]

/-- Offsets grow with places, line by line and then column by column, also past the ends of
lines. -/
theorem bytesBefore_mono (t : Text) {l l' c c' : Nat} (h : l < l' ∨ l = l' ∧ c ≤ c') :
    bytesBefore l c t ≤ bytesBefore l' c' t := by
  induction t generalizing l l' c c' with
  | nil => simp [bytesBefore]
  | cons b t ih =>
    cases l with
    | succ l =>
      cases l' with
      | zero => omega
      | succ l' =>
        rw [bytesBefore, bytesBefore]
        refine Nat.succ_le_succ (ih ?_)
        split <;> omega
    | zero =>
      cases c with
      | zero => simp [bytesBefore]
      | succ c =>
        rw [bytesBefore]
        split
        · exact Nat.zero_le _
        · next hb =>
          cases l' with
          | zero =>
            cases c' with
            | zero => omega
            | succ c' =>
              rw [bytesBefore, if_neg hb]
              exact Nat.succ_le_succ (ih (by omega))
          | succ l' =>
            rw [bytesBefore, if_neg hb]
            exact Nat.succ_le_succ (ih (by omega))

/-- Places that follow each other in the editor do so in the text. -/
theorem offsetAt_mono (t : Text) {a b : Place}
    (h : a.line < b.line ∨ a.line = b.line ∧ a.character ≤ b.character) :
    t.offsetAt a ≤ t.offsetAt b := bytesBefore_mono t h

end Text

namespace Position.At

variable {src : Text} {p : Position}

/-- From a position to its place and back. -/
theorem offsetAt_eq (h : p.At src) : src.offsetAt (Place.ofPosition p) = p.offset := by
  obtain ⟨front, line, rest, rfl, hfront, hnone, rfl⟩ := h.split
  exact (Text.bytesBefore_lines hfront _ _).trans
    (congrArg (front.length + ·) (Text.bytesBefore_line hnone rest))

/-- The line and the character of a place are no larger than the text. -/
theorem place_le (h : p.At src) :
    (Place.ofPosition p).line ≤ src.length ∧ (Place.ofPosition p).character ≤ src.length := by
  obtain ⟨front, line, rest, rfl, -, -, rfl⟩ := h.split
  have hcount := count_le_length (a := Text.newline) (l := front)
  simp only [Place.ofPosition, Nat.add_sub_cancel, length_append]
  omega

end Position.At

namespace Program

/-- **Places and positions agree.**  Where a node of a program that was read from a text starts or
stops, the offset of the place is that of the position, and in a text of less than 2³² bytes lines
and characters have 32 bits.  Whatever the text and the place, the offset is one of the text, and
places that follow each other have offsets that do. -/
theorem places_round_trip :
    (∀ {src p q n pos}, parse src = .ok p → (q = p ∨ ∃ context, q = (p.resolve context).program) →
      n ∈ q.nodes → pos = n.span.start ∨ pos = n.span.stop →
      src.offsetAt (Place.ofPosition pos) = pos.offset ∧
      (src.length < 2 ^ 32 → (Place.ofPosition pos).line < 2 ^ 32 ∧
        (Place.ofPosition pos).character < 2 ^ 32)) ∧
    ∀ (t : Text) (a b : Place), t.offsetAt a ≤ t.length ∧
      (a.line < b.line ∨ a.line = b.line ∧ a.character ≤ b.character →
        t.offsetAt a ≤ t.offsetAt b) := by
  refine ⟨?_, fun t a b => ⟨t.offsetAt_le_length a, t.offsetAt_mono⟩⟩
  intro src p q n pos hp hq hn hpos
  obtain ⟨hstart, hstop, -⟩ := (IsReading.of_parse hp hq).ends hn
  have hplaced : pos.At src := by
    rcases hpos with rfl | rfl
    · exact hstart
    · exact hstop
  refine ⟨hplaced.offsetAt_eq, fun hsmall => ?_⟩
  obtain ⟨hline, hcharacter⟩ := hplaced.place_le
  omega

/-- The body is on the second line, behind a character of two bytes. -/
def secondLineText : Text := "let var x:int = 1; in\n/*é*/x;"

/-- The body starts six bytes behind the start of its line. -/
theorem places_round_trip_second_line : ∃ p, parse secondLineText = .ok p ∧
    ∃ n ∈ p.nodes, n.span.start = ⟨28, 2, 7⟩ ∧
      secondLineText.offsetAt (Place.ofPosition n.span.start) = 28 ∧
      secondLineText.offsetAt ⟨0, 100⟩ ≤ secondLineText.offsetAt ⟨1, 6⟩ := by
  obtain ⟨p, hp, hbody⟩ := exists_ok_of_any (x := parse secondLineText)
    (q := fun p => p.nodes.any fun n => n.span.start = ⟨28, 2, 7⟩) (by decide +kernel)
  obtain ⟨n, hn, hstart⟩ := List.any_eq_true.mp hbody
  have hstart := of_decide_eq_true hstart
  have hround := (places_round_trip.1 hp (.inl rfl) hn (.inl rfl)).1
  refine ⟨p, hp, n, hn, hstart, hround.trans (congrArg Position.offset hstart), ?_⟩
  exact (places_round_trip.2 secondLineText ⟨0, 100⟩ ⟨1, 6⟩).2 (.inl (by decide))

end Program

end Foolscap
