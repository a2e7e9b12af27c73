import Reparse.Proofs.Text
import Reparse.Token

/-!
# Coordinates after an edit

What stands behind an edit moves by the same number of bytes and lines, and by the same number of
columns as long as no line feed comes between. So one shift gives every piece of text behind the
edit the coordinates it has in the new text, provided these are 32-bit numbers. Byte offsets do not
hang on lines: where a text has more lines than there are numbers, they move exactly all the same. No
text leads back behind its start.
-/

namespace Reparse

structure Text.Addressable (t : Text) : Prop where
  size_le : Text.size t ≤ maxCoordinate
  line_le : (Position.origin.advance t).line ≤ maxCoordinate

/-- The byte offsets of every point of a text are 32-bit numbers, and if `lines` is set its lines are
as well. -/
structure Text.Fits (lines : Bool) (t : Text) : Prop where
  size_le : Text.size t ≤ maxCoordinate
  line_le : lines = true → (Position.origin.advance t).line ≤ maxCoordinate

namespace Position

theorem advance_append (p : Position) (a b : Text) :
    p.advance (a ++ b) = (p.advance a).advance b := List.foldl_append

theorem line_le_advance (p : Position) (t : Text) : p.line ≤ (p.advance t).line := by
  induction t generalizing p with
  | nil => exact Nat.le_refl _
  | cons c cs ih =>
    have hstep : p.line ≤ (p.step c).line := by
      unfold step
      split <;> simp
    exact Nat.le_trans hstep (ih _)

theorem column_advance_le (p : Position) (t : Text) :
    (p.advance t).column ≤ p.column + Text.size t := by
  induction t generalizing p with
  | nil => exact Nat.le_refl _
  | cons c cs ih =>
    have hstep : (p.step c).column ≤ p.column + c.utf8Size := by
      unfold step
      split <;> simp
    have hrest := ih (p.step c)
    rw [advance_cons, Text.size_cons]
    omega

theorem advance_from (p q : Position) (t : Text) :
    ((q.advance t).line : Int) = (p.advance t).line + ((q.line : Int) - p.line) ∧
      ((q.advance t).column : Int) =
        (p.advance t).column +
          (if (p.advance t).line = p.line then (q.column : Int) - p.column else 0) := by
  induction t generalizing p q with
  | nil =>
    simp only [advance_nil, if_true]
    omega
  | cons c cs ih =>
    obtain ⟨hline, hcolumn⟩ := ih (p.step c) (q.step c)
    rw [advance_cons, advance_cons]
    by_cases hc : c = '\n'
    · have hp : p.step c = ⟨p.line + 1, 0⟩ := if_pos hc
      have hq : q.step c = ⟨q.line + 1, 0⟩ := if_pos hc
      have hle := line_le_advance ⟨p.line + 1, 0⟩ cs
      rw [hp, hq] at hline hcolumn ⊢
      rw [if_neg (by dsimp only at hle ⊢; omega)]
      dsimp only at hline hcolumn
      refine ⟨by omega, ?_⟩
      split at hcolumn <;> omega
    · have hp : p.step c = ⟨p.line, p.column + c.utf8Size⟩ := if_neg hc
      have hq : q.step c = ⟨q.line, q.column + c.utf8Size⟩ := if_neg hc
      rw [hp, hq] at hline hcolumn ⊢
      dsimp only at hline hcolumn ⊢
      refine ⟨by omega, ?_⟩
      split at hcolumn <;> omega

theorem le_refl (p : Position) : p ≤ p := .inr ⟨rfl, Nat.le_refl _⟩

theorem not_lt {p q : Position} : ¬p < q ↔ q ≤ p := by
  simp only [lt_def, le_def]
  omega

theorem le_advance (p : Position) (t : Text) : p ≤ p.advance t := by
  induction t generalizing p with
  | nil => exact le_refl p
  | cons c cs ih =>
    have hstep : p ≤ p.step c := by
      unfold step
      split
      · exact .inl (Nat.lt_succ_self _)
      · exact .inr ⟨rfl, Nat.le_add_right ..⟩
    have hrest := ih (p.step c)
    rw [advance_cons]
    simp only [le_def] at hstep hrest ⊢
    omega

theorem lt_advance (p : Position) {t : Text} (ht : t ≠ []) : p < p.advance t := by
  cases t with
  | nil => exact absurd rfl ht
  | cons c cs =>
    have hstep : p < p.step c := by
      unfold step
      split
      · exact .inl (Nat.lt_succ_self _)
      · exact .inr ⟨rfl, Nat.lt_add_of_pos_right c.utf8Size_pos⟩
    have hrest := le_advance (p.step c) cs
    rw [advance_cons]
    simp only [le_def, lt_def] at hstep hrest ⊢
    omega

end Position

theorem LineRange.contains_iff {r : LineRange} (h : r.start < r.stop) {p : Position} :
    r.contains p = true ↔ r.start ≤ p ∧ p < r.stop := by
  have hne : r.start ≠ r.stop := fun heq => by
    rw [heq, Position.lt_def] at h
    omega
  rw [contains, if_neg hne, Bool.and_eq_true, decide_eq_true_eq, decide_eq_true_eq]

namespace Text.Addressable

theorem of_append {a b : Text} (h : Addressable (a ++ b)) : Addressable a := by
  have hsize := h.size_le
  have hline := h.line_le
  rw [size_append] at hsize
  rw [Position.advance_append] at hline
  exact ⟨by omega, Nat.le_trans (Position.line_le_advance _ _) hline⟩

theorem column_le {t : Text} (h : Addressable t) :
    (Position.origin.advance t).column ≤ maxCoordinate := by
  have hcolumn := Position.column_advance_le .origin t
  have hsize := h.size_le
  have horigin : Position.origin.column = 0 := rfl
  omega

end Text.Addressable

namespace Text.Fits

variable {lines : Bool}

theorem of_append {a b : Text} (h : Fits lines (a ++ b)) : Fits lines a := by
  have hsize := h.size_le
  rw [size_append] at hsize
  refine ⟨by omega, fun hlines => ?_⟩
  have hline := h.line_le hlines
  rw [Position.advance_append] at hline
  exact Nat.le_trans (Position.line_le_advance _ _) hline

theorem addressable {t : Text} (h : Fits true t) : Addressable t := ⟨h.size_le, h.line_le rfl⟩

end Text.Fits

theorem Text.fits_of_size {t : Text} (h : size t ≤ maxCoordinate) : Fits false t :=
  ⟨h, fun hlines => absurd hlines Bool.false_ne_true⟩

theorem Text.Addressable.fits {t : Text} (h : Addressable t) (lines : Bool) : Fits lines t :=
  ⟨h.size_le, fun _ => h.line_le⟩

theorem Position.line_advance (p : Position) (t : Text) :
    (p.advance t).line = p.line + t.count '\n' := by
  induction t generalizing p with
  | nil => rfl
  | cons c cs ih =>
    rw [advance_cons, ih, List.count_cons]
    unfold step
    by_cases hc : c = '\n'
    · rw [if_pos hc, if_pos (beq_iff_eq.mpr hc)]
      dsimp only
      omega
    · rw [if_neg hc, if_neg (mt beq_iff_eq.mp hc)]
      rfl

theorem Text.addressable_iff (t : Text) :
    t.Addressable ↔ size t ≤ maxCoordinate ∧ t ≠ List.replicate maxCoordinate '\n' := by
  have hline : (Position.origin.advance t).line = 1 + t.count '\n' := Position.line_advance ..
  have hcount : t.count '\n' ≤ t.length := List.count_le_length
  have hlength := length_le_size t
  constructor
  · rintro ⟨hsize, hlines⟩
    refine ⟨hsize, fun ht => ?_⟩
    have hall : t.count '\n' = maxCoordinate := by rw [ht, List.count_replicate_self]
    omega
  · rintro ⟨hsize, hfeeds⟩
    refine ⟨hsize, Nat.not_lt.mp fun hlines => hfeeds ?_⟩
    have hlong : t.length = maxCoordinate := by omega
    have hall : t.count '\n' = t.length := by omega
    rw [List.eq_replicate_iff]
    exact ⟨hlong, fun c hc => (List.count_eq_length.mp hall c hc).symm⟩

theorem Text.ne_feeds_of_size_lt {t : Text} (h : size t < maxCoordinate) :
    t ≠ List.replicate maxCoordinate '\n' := by
  rintro rfl
  have hle := length_le_size (List.replicate maxCoordinate '\n')
  rw [List.length_replicate] at hle
  exact absurd h (Nat.not_lt.mpr hle)

theorem Text.fits_of_ne_feeds {lines : Bool} {t : Text} (hsize : size t ≤ maxCoordinate)
    (hfeeds : lines = true → t ≠ List.replicate maxCoordinate '\n') : Fits lines t :=
  ⟨hsize, fun hlines => ((addressable_iff t).mpr ⟨hsize, hfeeds hlines⟩).line_le⟩

theorem moveCoordinate_of_eq {n m : Nat} {delta : Int} (h : (m : Int) = n + delta)
    (hm : m ≤ maxCoordinate) : moveCoordinate n delta = m := by
  unfold moveCoordinate
  rw [← h, Int.toNat_natCast, Nat.min_eq_left hm]

def IsWord (n : Int) : Prop := -9223372036854775808 ≤ n ∧ n ≤ 9223372036854775807

/-- A 64-bit number with a sign, and its sums with coordinates are such numbers too. -/
def IsOffset (delta : Int) : Prop := ∀ n : Nat, n ≤ maxCoordinate → IsWord delta ∧ IsWord (n + delta)

theorem isOffset_sub {m n : Nat} (hm : m ≤ maxCoordinate) (hn : n ≤ maxCoordinate) :
    IsOffset ((m : Int) - n) := by
  intro k hk
  unfold maxCoordinate at hm hn hk
  unfold IsWord
  omega

/-- Where a piece of text sits that comes behind the text `before`. -/
def Placement.behind (before text : Text) : Placement :=
  .ofText (Text.size before) (Position.origin.advance before) text

namespace Shift

def between (before removed inserted : Text) : Shift :=
  .ofReplacement (Text.size before) (Text.size (before ++ removed))
    (Position.origin.advance before) (Position.origin.advance (before ++ removed)) inserted

variable {before removed inserted : Text}

theorem movePosition_between (t : Text)
    (hfits : Text.Addressable (before ++ inserted ++ t)) :
    (between before removed inserted).movePosition (Position.origin.advance (before ++ removed ++ t)) =
      Position.origin.advance (before ++ inserted ++ t) := by
  have hline := hfits.line_le
  have hcolumn := hfits.column_le
  obtain ⟨hlines, hcolumns⟩ := Position.advance_from (Position.origin.advance (before ++ removed))
    (Position.origin.advance (before ++ inserted)) t
  rw [← Position.advance_append, ← Position.advance_append] at hlines hcolumns
  have hstop : (Position.origin.advance before).advance inserted =
      Position.origin.advance (before ++ inserted) := (Position.advance_append ..).symm
  unfold movePosition between ofReplacement
  simp only [hstop]
  have hmovedLine := moveCoordinate_of_eq hlines hline
  rw [hmovedLine]
  split
  next hsame =>
    rw [if_pos hsame] at hcolumns
    rw [moveCoordinate_of_eq hcolumns hcolumn]
  next hother =>
    rw [if_neg hother, Int.add_zero] at hcolumns
    rw [← Int.ofNat.inj hcolumns]

theorem byteOffset_between : (between before removed inserted).byteOffset =
    (Text.size inserted : Int) - Text.size removed := by
  rw [between, ofReplacement, Text.size_append]
  dsimp only
  omega

structure FitsWords (lines : Bool) (m : Shift) : Prop where
  byteOffset : IsOffset m.byteOffset
  lineOffset : lines = true → IsOffset m.lineOffset
  columnOffset : lines = true → IsOffset m.columnOffset

theorem fitsWords_between {lines : Bool} (hold : Text.Fits lines (before ++ removed))
    (hnew : Text.Fits lines (before ++ inserted)) :
    (between before removed inserted).FitsWords lines := by
  have hsize := hold.size_le
  have hsize' := hnew.size_le
  rw [Text.size_append] at hsize hsize'
  refine ⟨?_, fun hlines => ?_, fun hlines => ?_⟩
  · rw [byteOffset_between]
    exact isOffset_sub (by omega) (by omega)
  · subst hlines
    have hline := hold.addressable.line_le
    have hline' := hnew.addressable.line_le
    rw [Position.advance_append] at hline'
    exact isOffset_sub hline' hline
  · subst hlines
    have hcolumn := hold.addressable.column_le
    have hcolumn' := hnew.addressable.column_le
    rw [Position.advance_append] at hcolumn'
    exact isOffset_sub hcolumn' hcolumn

theorem affects_behind (m : Text) : (between before removed inserted).affects
    (Text.size (before ++ removed ++ m)) = true := by
  simp only [affects, between, ofReplacement, Text.size_append, decide_eq_true_eq]
  omega

theorem moveOffset_between (m : Text)
    (hsize : Text.size (before ++ inserted ++ m) ≤ maxCoordinate) :
    moveCoordinate (Text.size (before ++ removed ++ m))
      (between before removed inserted).byteOffset = Text.size (before ++ inserted ++ m) := by
  refine moveCoordinate_of_eq ?_ hsize
  rw [byteOffset_between]
  simp only [Text.size_append]
  omega

theorem move_behind (m text : Text)
    (hfits : Text.Addressable (before ++ inserted ++ m ++ text)) :
    (between before removed inserted).move (.behind (before ++ removed ++ m) text) =
      .behind (before ++ inserted ++ m) text := by
  have hstartPos : (between before removed inserted).movePosition
      (Position.origin.advance (before ++ removed ++ m)) =
        Position.origin.advance (before ++ inserted ++ m) :=
    movePosition_between m hfits.of_append
  have hendPos : (between before removed inserted).movePosition
      ((Position.origin.advance (before ++ removed ++ m)).advance text) =
        (Position.origin.advance (before ++ inserted ++ m)).advance text := by
    have h : (between before removed inserted).movePosition
        (Position.origin.advance (before ++ removed ++ (m ++ text))) =
          Position.origin.advance (before ++ inserted ++ (m ++ text)) :=
      movePosition_between (m ++ text) (by rwa [← List.append_assoc])
    rwa [← List.append_assoc, ← List.append_assoc, Position.advance_append,
      Position.advance_append _ (before ++ inserted ++ m)] at h
  unfold Placement.behind Placement.ofText move
  rw [if_pos (affects_behind m)]
  dsimp only
  rw [moveOffset_between m hfits.of_append.size_le, hstartPos, hendPos]

theorem move_before {p : Placement} (h : p.start < Text.size (before ++ removed)) :
    (between before removed inserted).move p = p := by
  have haffects : (between before removed inserted).affects p.start = false := by
    exact decide_eq_false (Nat.not_le.mpr h)
  unfold move
  rw [haffects]
  rfl

end Shift

/-- What is seen of a placement: its lines and columns only if `lines` is set. -/
def Placement.seen : Bool → Placement → Placement
  | true, p => p
  | false, p => ⟨p.start, .origin, .origin⟩

def Location.seen : Bool → Location → Location
  | true, l => l
  | false, l => ⟨l.span, .point .origin⟩

def Shift.seen : Bool → Shift → Shift
  | true, m => m
  | false, m => ⟨m.bytePos, m.byteOffset, 0, 0, 0⟩

section Seen

variable {lines : Bool}

theorem Placement.start_of_seen {p q : Placement} (h : p.seen lines = q.seen lines) :
    p.start = q.start := by
  cases lines with
  | true => exact congrArg Placement.start h
  | false => exact (Placement.mk.inj h).1

theorem Placement.seen_location (lines : Bool) (p : Placement) (size : Nat) :
    (p.location size).seen lines = ((p.seen lines).location size).seen lines := by
  cases lines with
  | true => rfl
  | false => rfl

theorem Location.span_seen (lines : Bool) (l : Location) : (l.seen lines).span = l.span := by
  cases lines with
  | true => rfl
  | false => rfl

theorem Location.span_of_seen {l m : Location} (h : l.seen lines = m.seen lines) :
    l.span = m.span := by
  cases lines with
  | true => exact congrArg Location.span h
  | false => exact (Location.mk.inj h).1

theorem Location.eq_of_seen {l m : Location} (h : l.seen lines = m.seen lines)
    (hlines : lines = true) : l = m := by
  subst hlines
  exact h

theorem Location.seen_merge {l l' m m' : Location} (h : l.seen lines = l'.seen lines)
    (h' : m.seen lines = m'.seen lines) : (l.merge m).seen lines = (l'.merge m').seen lines := by
  cases lines with
  | true =>
    have hl : l = l' := h
    have hm : m = m' := h'
    rw [hl, hm]
  | false =>
    have hspan : (l.merge m).span = (l'.merge m').span := by
      rw [Location.merge, Location.merge, Location.span_of_seen h, Location.span_of_seen h']
    exact congrArg (fun s => (⟨s, .point .origin⟩ : Location)) hspan

theorem Shift.seen_move (lines : Bool) (m : Shift) (p : Placement) :
    (m.move p).seen lines = ((m.seen lines).move (p.seen lines)).seen lines := by
  cases lines with
  | true => rfl
  | false =>
    have haffects : (m.seen false).affects p.start = m.affects p.start := rfl
    by_cases h : m.affects p.start = true
    · simp only [Shift.move, Placement.seen, haffects, if_pos h]
      rfl
    · simp only [Shift.move, Placement.seen, haffects, if_neg h]

theorem Shift.FitsWords.of_seen {m m' : Shift} (h : m.seen lines = m'.seen lines)
    (hm : m'.FitsWords lines) : m.FitsWords lines := by
  cases lines with
  | true =>
    have hsame : m = m' := h
    rwa [hsame]
  | false =>
    have hoffset : m.byteOffset = m'.byteOffset := (Shift.mk.inj h).2.1
    exact ⟨hoffset ▸ hm.byteOffset, nofun, nofun⟩

theorem Shift.seen_move_between {before removed inserted : Text} (m text : Text)
    (hfits : Text.Fits lines (before ++ inserted ++ m ++ text)) :
    ((between before removed inserted).move (.behind (before ++ removed ++ m) text)).seen lines =
      (Placement.behind (before ++ inserted ++ m) text).seen lines := by
  cases lines with
  | true => exact move_behind m text hfits.addressable
  | false =>
    unfold Placement.behind Placement.ofText move
    rw [if_pos (affects_behind m)]
    exact congrArg (fun n => (⟨n, .origin, .origin⟩ : Placement))
      (moveOffset_between m hfits.of_append.size_le)

structure Text.EndsAt (lines : Bool) (t : Text) (offset : Nat) (p : Position) : Prop where
  offset : offset = Text.size t
  position : lines = true → p = Position.origin.advance t

namespace Text.EndsAt

variable {t u : Text} {offset stop : Nat} {p q : Position}

theorem append (h : EndsAt lines t offset p) (u : Text) :
    EndsAt lines (t ++ u) (offset + Text.size u) (p.advance u) := by
  refine ⟨?_, fun hlines => ?_⟩
  · rw [h.offset, Text.size_append]
  · rw [h.position hlines, Position.advance_append]

theorem placement (h : EndsAt lines t offset p) (text : Text) :
    (Placement.ofText offset p text).seen lines = (Placement.behind t text).seen lines := by
  rw [h.offset]
  cases lines with
  | true => rw [h.position rfl, Placement.behind]
  | false => rfl

theorem shift (h : EndsAt lines t offset p) (h' : EndsAt lines (t ++ u) stop q) (text : Text) :
    (Shift.ofReplacement offset stop p q text).seen lines = (Shift.between t u text).seen lines := by
  rw [h.offset, h'.offset]
  cases lines with
  | true => rw [h.position rfl, h'.position rfl, Shift.between]
  | false => rfl

end Text.EndsAt

end Seen

end Reparse
