import Reparse.Proofs.Regions

/-!
# Exact shifts

The shift of an edit is computed at the two ends of the removed text, and applied to pieces that may
stand any number of lines behind it. The main statement says that 32-bit numbers suffice to compute
the shift and the coordinates of such a piece in both texts, and 64-bit numbers for the offsets. The
shift takes the piece to its coordinates in the edited text by adding the offsets and nothing else,
and a piece which starts before the removed text ends stays where it is. Of the texts whose size is a
32-bit number one has no such coordinates, the longest one if all of it is line feeds. The last
theorem shows what comes of it on either side of an edit.
-/

namespace Reparse

theorem Text.size_feeds (n : Nat) : size (List.replicate n '\n') = n := by
  induction n with
  | zero => rfl
  | succ n ih =>
    have hfeed : Char.utf8Size '\n' = 1 := rfl
    rw [List.replicate_succ, size_cons, ih, hfeed, Nat.add_comm]

theorem Text.fits_feeds (lines : Bool) {n : Nat} (hn : n < maxCoordinate) :
    Text.Fits lines (List.replicate n '\n') := by
  have hsize : Text.size (List.replicate n '\n') < maxCoordinate := by rwa [Text.size_feeds]
  exact fits_of_ne_feeds (Nat.le_of_lt hsize) fun _ => ne_feeds_of_size_lt hsize

theorem Text.Addressable.fits_advance {t : Text} (h : t.Addressable) :
    (Position.origin.advance t).Fits := ⟨h.line_le, h.column_le⟩

/-- Where a piece of text sits that comes behind the text `before`, counted in 32-bit numbers. -/
def Placement.behind? (before text : Text) : Option Placement := do
  let startPos ← Position.origin.advanceAtOnce? before
  let endPos ← startPos.advanceAtOnce? text
  return ⟨coordinate (Text.size before), startPos, endPos⟩

theorem Placement.behind?_eq {before text : Text} (h : Text.Addressable (before ++ text)) :
    behind? before text = some (behind before text) := by
  have hbefore := h.of_append
  have hend := h.fits_advance
  rw [Position.advance_append] at hend
  rw [behind?, Position.advanceAtOnce?_eq hbefore.fits_advance, Option.bind_eq_bind,
    Option.bind_some, Position.advanceAtOnce?_eq hend, Option.bind_some,
    coordinate_of_le hbefore.size_le]
  rfl

theorem Placement.line_end_feeds (n : Nat) :
    (behind (List.replicate n '\n') ['\n']).endPos.line = n + 2 := by
  unfold behind ofText
  rw [← Position.advance_append, Position.line_advance, List.count_append,
    List.count_replicate_self]
  exact Nat.add_comm 1 (n + 1)

theorem Placement.behind?_feeds {n : Nat} (hn : n + 1 = maxCoordinate) :
    behind? (List.replicate n '\n') ['\n'] = none := by
  have hsize : Text.size (List.replicate n '\n') < maxCoordinate := by
    rw [Text.size_feeds]
    omega
  have hbefore := (Text.addressable_iff _).mpr
    ⟨Nat.le_of_lt hsize, Text.ne_feeds_of_size_lt hsize⟩
  have hline : (Position.origin.advance (List.replicate n '\n')).line = maxCoordinate := by
    rw [Position.line_advance, List.count_replicate_self]
    exact Eq.trans (Nat.add_comm 1 n) hn
  have hlast : Text.lastFeed? ['\n'] = some 0 := by decide
  have hcount : coordinate (Text.octets ['\n'] |>.count '\n') = 1 := by decide
  have hover : addCoordinates? maxCoordinate 1 = none := by decide
  rw [behind?, Position.advanceAtOnce?_eq hbefore.fits_advance, Option.bind_eq_bind,
    Option.bind_some, Position.advanceAtOnce?, hlast]
  dsimp only
  rw [hline, hcount, hover]
  rfl

namespace Shift

/-- A position goes to another one by just the offsets of a shift: columns count only on the line
that the shift names. -/
structure Carries (m : Shift) (p q : Position) : Prop where
  line : (q.line : Int) = p.line + m.lineOffset
  column : (q.column : Int) = p.column + if p.line = m.linePos then m.columnOffset else 0

structure CarriesPlacement (m : Shift) (p q : Placement) : Prop where
  affects : m.affects p.start
  start : (q.start : Int) = p.start + m.byteOffset
  startPos : m.Carries p.startPos q.startPos
  endPos : m.Carries p.endPos q.endPos

variable (before removed inserted : Text)

theorem carries_between (t : Text) :
    (between before removed inserted).Carries (Position.origin.advance (before ++ removed ++ t))
      (Position.origin.advance (before ++ inserted ++ t)) := by
  obtain ⟨hlines, hcolumns⟩ := Position.advance_from (Position.origin.advance (before ++ removed))
    (Position.origin.advance (before ++ inserted)) t
  have hstop : (Position.origin.advance before).advance inserted =
      Position.origin.advance (before ++ inserted) := (Position.advance_append ..).symm
  rw [← Position.advance_append, ← Position.advance_append] at hlines hcolumns
  constructor
  · simpa only [between, ofReplacement, hstop] using hlines
  · simpa only [between, ofReplacement, hstop] using hcolumns

theorem carriesPlacement_between (middle text : Text) :
    (between before removed inserted).CarriesPlacement (.behind (before ++ removed ++ middle) text)
      (.behind (before ++ inserted ++ middle) text) where
  affects := by
    simp only [affects, between, ofReplacement, Placement.behind, Placement.ofText,
      Text.size_append, decide_eq_true_eq]
    omega
  start := by
    simp only [between, ofReplacement, Placement.behind, Placement.ofText, Text.size_append]
    omega
  startPos := carries_between before removed inserted middle
  endPos := by
    have hwhole := carries_between before removed inserted (middle ++ text)
    rwa [← List.append_assoc, ← List.append_assoc, Position.advance_append,
      Position.advance_append _ (before ++ inserted ++ middle)] at hwhole

def between? (before removed inserted : Text) : Option Shift := do
  let startPos ← Position.origin.advanceAtOnce? before
  let stopPos ← Position.origin.advanceAtOnce? (before ++ removed)
  let newStop ← startPos.advanceAtOnce? inserted
  return {
    bytePos := coordinate (Text.size (before ++ removed))
    byteOffset := (Text.size inserted : Int) -
      ((coordinate (Text.size (before ++ removed)) : Int) - coordinate (Text.size before))
    linePos := stopPos.line
    lineOffset := (newStop.line : Int) - stopPos.line
    columnOffset := (newStop.column : Int) - stopPos.column }

theorem between?_eq {before removed inserted : Text} (hold : Text.Addressable (before ++ removed))
    (hnew : Text.Addressable (before ++ inserted)) :
    between? before removed inserted = some (between before removed inserted) := by
  have hbefore := hold.of_append
  have hstop := hnew.fits_advance
  rw [Position.advance_append] at hstop
  simp only [between?, Position.advanceAtOnce?_eq hbefore.fits_advance,
    Position.advanceAtOnce?_eq hold.fits_advance, Position.advanceAtOnce?_eq hstop,
    coordinate_of_le hbefore.size_le, coordinate_of_le hold.size_le, Option.bind_eq_bind,
    Option.bind_some]
  rfl

/-- A shift is exact: any number of line feeds may stand in each of the five texts. -/
theorem move_between_exact (before removed inserted middle text : Text)
    (hold : Text.size (before ++ removed ++ middle ++ text) ≤ maxCoordinate)
    (holdFeeds : before ++ removed ++ middle ++ text ≠ List.replicate maxCoordinate '\n')
    (hnew : Text.size (before ++ inserted ++ middle ++ text) ≤ maxCoordinate)
    (hnewFeeds : before ++ inserted ++ middle ++ text ≠ List.replicate maxCoordinate '\n') :
    ∃ m p q, between? before removed inserted = some m ∧
      Placement.behind? (before ++ removed ++ middle) text = some p ∧
      Placement.behind? (before ++ inserted ++ middle) text = some q ∧
      m.move p = q ∧ m.CarriesPlacement p q ∧ m.FitsWords true ∧
      ∀ r : Placement, r.start < Text.size (before ++ removed) → m.move r = r := by
  have hold := (Text.addressable_iff _).mpr ⟨hold, holdFeeds⟩
  have hnew := (Text.addressable_iff _).mpr ⟨hnew, hnewFeeds⟩
  have hremoved := hold.of_append.of_append
  have hinserted := hnew.of_append.of_append
  refine ⟨_, _, _, between?_eq hremoved hinserted, Placement.behind?_eq hold,
    Placement.behind?_eq hnew, move_behind middle text hnew, carriesPlacement_between .., ?_, ?_⟩
  · exact fitsWords_between (hremoved.fits true) (hinserted.fits true)
  · exact fun r hr => move_before hr

theorem move_between_exact_joined_lines :
    (ofReplacement 3 8 ⟨2, 1⟩ ⟨4, 1⟩ "1\n2345".toList).move ⟨9, ⟨4, 2⟩, ⟨5, 1⟩⟩ =
      ⟨10, ⟨3, 5⟩, ⟨4, 1⟩⟩ := by
  have hold : Text.size ("a\nb".toList ++ "x\ny\nz".toList ++ "c".toList ++ "p\nq".toList) <
      maxCoordinate := by decide
  have hnew : Text.size ("a\nb".toList ++ "1\n2345".toList ++ "c".toList ++ "p\nq".toList) <
      maxCoordinate := by decide
  obtain ⟨m, p, q, hm, hp, hq, hmove, -⟩ := move_between_exact "a\nb".toList "x\ny\nz".toList
    "1\n2345".toList "c".toList "p\nq".toList (Nat.le_of_lt hold) (Text.ne_feeds_of_size_lt hold)
    (Nat.le_of_lt hnew) (Text.ne_feeds_of_size_lt hnew)
  have hm : some (ofReplacement 3 8 ⟨2, 1⟩ ⟨4, 1⟩ "1\n2345".toList) = some m := hm
  have hp : some ⟨9, ⟨4, 2⟩, ⟨5, 1⟩⟩ = some p := hp
  have hq : some ⟨10, ⟨3, 5⟩, ⟨4, 1⟩⟩ = some q := hq
  rw [Option.some.inj hm, Option.some.inj hp, hmove, Option.some.inj hq]

theorem line_move_le (m : Shift) {p : Placement} (h : m.affects p.start) :
    (m.move p).endPos.line ≤ maxCoordinate := by
  unfold move
  rw [if_pos h]
  exact Nat.min_le_right _ _

theorem line_move_le_add (m : Shift) {p : Placement} (h : m.affects p.start) :
    (m.move p).endPos.line ≤ ((p.endPos.line : Int) + m.lineOffset).toNat := by
  unfold move
  rw [if_pos h]
  exact Nat.min_le_left _ _

theorem move_behind_feeds {n : Nat} (hn : n + 2 = maxCoordinate) :
    Text.size (List.replicate n '\n' ++ [] ++ [] ++ ['\n']) ≤ maxCoordinate ∧
      Text.size (List.replicate n '\n' ++ ['\n'] ++ [] ++ ['\n']) ≤ maxCoordinate ∧
      (between (List.replicate n '\n') [] ['\n']).move
          (.behind (List.replicate n '\n' ++ [] ++ []) ['\n']) ≠
        .behind (List.replicate n '\n' ++ ['\n'] ++ []) ['\n'] ∧
      Placement.behind? (List.replicate n '\n' ++ ['\n'] ++ []) ['\n'] = none := by
  have hfeed : Text.size ['\n'] = 1 := rfl
  have hjoined : List.replicate n '\n' ++ ['\n'] ++ [] = List.replicate (n + 1) '\n' := by
    rw [List.append_nil, List.replicate_succ']
  refine ⟨?_, ?_, fun heq => ?_, ?_⟩
  · simp only [Text.size_append, Text.size_nil, Text.size_feeds, hfeed]
    omega
  · simp only [Text.size_append, Text.size_nil, Text.size_feeds, hfeed]
    omega
  · have hcarried := carriesPlacement_between (List.replicate n '\n') [] ['\n'] [] ['\n']
    have hheld := line_move_le _ hcarried.affects
    rw [heq, hjoined, Placement.line_end_feeds] at hheld
    omega
  · rw [hjoined]
    exact Placement.behind?_feeds hn

/-- One more line feed among line feeds: both texts have a 32-bit size, but the last line of the
longer one has no 32-bit number. The piece that ends there is held back on the line before, and the
way back, from the longer text to the shorter one, starts at coordinates that there are none of. -/
theorem move_between_held_back :
    Text.size (List.replicate (maxCoordinate - 2) '\n' ++ [] ++ [] ++ ['\n']) ≤ maxCoordinate ∧
      Text.size (List.replicate (maxCoordinate - 2) '\n' ++ ['\n'] ++ [] ++ ['\n']) ≤
        maxCoordinate ∧
      (between (List.replicate (maxCoordinate - 2) '\n') [] ['\n']).move
          (.behind (List.replicate (maxCoordinate - 2) '\n' ++ [] ++ []) ['\n']) ≠
        .behind (List.replicate (maxCoordinate - 2) '\n' ++ ['\n'] ++ []) ['\n'] ∧
      Placement.behind? (List.replicate (maxCoordinate - 2) '\n' ++ ['\n'] ++ []) ['\n'] =
        none :=
  move_behind_feeds rfl

end Shift

end Reparse
