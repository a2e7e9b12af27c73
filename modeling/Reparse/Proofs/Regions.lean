import Reparse.Proofs.Coordinates
import Reparse.Proofs.Octets

/-!
# Regions in bytes and in lines

The position behind a text can be had without counting on character by character: the last line feed
of the text tells the column, the number of line feeds tells the line. The main statement says that
32-bit numbers suffice for this as long as they hold the result, and that positions found in this
way add up wherever a text is cut in two. It says too that what comes later in a text comes later in
lines and columns. So one region of a text is part of another in bytes exactly when it is in lines
and columns, and the least region around the two is found in both forms alike.
-/

namespace Reparse

namespace Text

def lastFeed? : Text → Option Nat
  | [] => none
  | c :: cs =>
    match lastFeed? cs with
    | some n => some (c.utf8Size + n)
    | none => if c = '\n' then some 0 else none

theorem lastFeed?_cases (t : Text) :
    lastFeed? t = none ∧ '\n' ∉ t ∨
      ∃ a b, t = a ++ '\n' :: b ∧ '\n' ∉ b ∧ lastFeed? t = some (size a) := by
  induction t with
  | nil => exact .inl ⟨rfl, List.not_mem_nil⟩
  | cons c cs ih =>
    -- What stands behind `c` is looked through before `c` itself is.
    rcases ih with ⟨hnone, hcs⟩ | ⟨a, b, hcs, hb, hsome⟩
    · by_cases hc : c = '\n'
      · exact .inr ⟨[], cs, by rw [hc]; rfl, hcs, by simp [lastFeed?, hnone, hc]⟩
      · exact .inl ⟨by simp [lastFeed?, hnone, hc], by simp [hcs, Ne.symm hc]⟩
    · exact .inr ⟨c :: a, b, by rw [hcs]; rfl, hb, by simp [lastFeed?, hsome]⟩

end Text

def coordinate (n : Nat) : Nat := min n maxCoordinate

theorem coordinate_of_le {n : Nat} (h : n ≤ maxCoordinate) : coordinate n = n := Nat.min_eq_left h

def addCoordinates? (m n : Nat) : Option Nat :=
  if m + n ≤ maxCoordinate then some (m + n) else none

theorem addCoordinates?_coordinate {m n : Nat} (h : m + n ≤ maxCoordinate) :
    addCoordinates? m (coordinate n) = some (m + n) := by
  rw [coordinate_of_le (by omega), addCoordinates?, if_pos h]

namespace Position

structure Fits (p : Position) : Prop where
  line : p.line ≤ maxCoordinate
  column : p.column ≤ maxCoordinate

/-- The position after a text that starts at `p`, from the last line feed of the text and the number
of all its line feeds. -/
def advanceAtOnce? (p : Position) (t : Text) : Option Position :=
  match t.lastFeed? with
  | some last => do
    let line ← addCoordinates? p.line (coordinate (t.octets.count '\n'))
    return ⟨line, coordinate (t.size - last - 1)⟩
  | none => do
    let column ← addCoordinates? p.column (coordinate t.size)
    return ⟨p.line, column⟩

variable {p : Position} {a b t : Text}

theorem advance_of_no_feed (p : Position) (h : '\n' ∉ t) :
    p.advance t = ⟨p.line, p.column + t.size⟩ := by
  induction t generalizing p with
  | nil => rfl
  | cons c cs ih =>
    have hc : c ≠ '\n' := fun heq => h (heq ▸ List.mem_cons_self)
    have hcs : '\n' ∉ cs := fun hmem => h (List.mem_cons_of_mem c hmem)
    rw [advance_cons, ih _ hcs, step, if_neg hc, Text.size_cons, Nat.add_assoc]

theorem advance_of_last_feed (p : Position) (h : '\n' ∉ b) :
    p.advance (a ++ '\n' :: b) = ⟨p.line + (a ++ '\n' :: b).count '\n', b.size⟩ := by
  have hline := line_advance p (a ++ '\n' :: b)
  have hfeed : ((p.advance a).step '\n').column = 0 := rfl
  have hcolumn : (p.advance (a ++ '\n' :: b)).column = b.size := by
    rw [advance_append, advance_cons, advance_of_no_feed _ h, hfeed, Nat.zero_add]
  rw [← hline, ← hcolumn]

theorem advanceAtOnce?_eq (h : (p.advance t).Fits) : p.advanceAtOnce? t = some (p.advance t) := by
  obtain ⟨hline, hcolumn⟩ := h
  rcases t.lastFeed?_cases with ⟨hnone, hfeeds⟩ | ⟨a, b, rfl, hb, hsome⟩
  · rw [advance_of_no_feed p hfeeds] at hcolumn ⊢
    simp [advanceAtOnce?, hnone, addCoordinates?_coordinate hcolumn]
  · rw [advance_of_last_feed p hb] at hline hcolumn ⊢
    have hcount : (a ++ '\n' :: b).octets.count '\n' = (a ++ '\n' :: b).count '\n' :=
      Text.count_octets (by decide) _
    have hrest : Text.size (a ++ '\n' :: b) - Text.size a - 1 = Text.size b := by
      have hfeed : Char.utf8Size '\n' = 1 := rfl
      rw [Text.size_append, Text.size_cons, hfeed]
      omega
    simp only [advanceAtOnce?, hsome, hcount, hrest, addCoordinates?_coordinate hline,
      coordinate_of_le hcolumn]
    rfl

example : advanceAtOnce? ⟨1, maxCoordinate⟩ ['a'] = none := by decide

theorem advanceAtOnce?_append (ha : (p.advance a).Fits) (hab : (p.advance (a ++ b)).Fits) :
    p.advanceAtOnce? (a ++ b) = (p.advanceAtOnce? a).bind (·.advanceAtOnce? b) := by
  have hb : ((p.advance a).advance b).Fits := by rwa [← advance_append]
  rw [advanceAtOnce?_eq hab, advanceAtOnce?_eq ha, Option.bind_some, advanceAtOnce?_eq hb,
    advance_append]

end Position

namespace Text

def positionAt (p : Position) (t : Text) (i : Nat) : Position := p.advance (takeBytes i t)

variable {p : Position} {t : Text} {i j : Nat}

theorem positionAt_lt (hi : onBoundary i t) (hj : onBoundary j t) (h : i < j) :
    positionAt p t i < positionAt p t j := by
  have hsize : size (takeBytes i t) = i := of_decide_eq_true hi
  have hsize' : size (takeBytes j t) = j := of_decide_eq_true hj
  have hcuts : takeBytes i t ++ dropBytes i t = takeBytes j t ++ dropBytes j t := by
    rw [takeBytes_append_dropBytes, takeBytes_append_dropBytes]
  -- The text up to `j` is the text up to `i` and some more.
  obtain ⟨m, hm, -⟩ := exists_between hcuts (by omega)
  have hne : m ≠ [] := by
    rintro rfl
    rw [hm, List.append_nil] at hsize'
    omega
  rw [positionAt, positionAt, hm, Position.advance_append]
  exact Position.lt_advance _ hne

theorem positionAt_lt_iff (hi : onBoundary i t) (hj : onBoundary j t) :
    positionAt p t i < positionAt p t j ↔ i < j := by
  refine ⟨fun h => ?_, positionAt_lt hi hj⟩
  rcases Nat.lt_trichotomy i j with hlt | rfl | hgt
  · exact hlt
  · simp only [Position.lt_def] at h
    omega
  · have hback := positionAt_lt (p := p) hj hi hgt
    simp only [Position.lt_def] at h hback
    omega

theorem positionAt_le_iff (hi : onBoundary i t) (hj : onBoundary j t) :
    positionAt p t i ≤ positionAt p t j ↔ i ≤ j := by
  rw [← Position.not_lt, positionAt_lt_iff hj hi, Nat.not_lt]

theorem positionAt_inj (hi : onBoundary i t) (hj : onBoundary j t)
    (h : positionAt p t i = positionAt p t j) : i = j := by
  have hle : positionAt p t i ≤ positionAt p t j := h ▸ Position.le_refl _
  have hge : positionAt p t j ≤ positionAt p t i := h ▸ Position.le_refl _
  exact Nat.le_antisymm ((positionAt_le_iff hi hj).mp hle) ((positionAt_le_iff hj hi).mp hge)

theorem onBoundary_min (hi : onBoundary i t) (hj : onBoundary j t) : onBoundary (min i j) t := by
  rcases Nat.le_total i j with h | h
  · rwa [Nat.min_eq_left h]
  · rwa [Nat.min_eq_right h]

theorem onBoundary_max (hi : onBoundary i t) (hj : onBoundary j t) : onBoundary (max i j) t := by
  rcases Nat.le_total i j with h | h
  · rwa [Nat.max_eq_right h]
  · rwa [Nat.max_eq_left h]

theorem earlier_positionAt (hi : onBoundary i t) (hj : onBoundary j t) :
    (positionAt p t i).earlier (positionAt p t j) = positionAt p t (min i j) := by
  rw [Position.earlier]
  simp only [positionAt_lt_iff hj hi]
  split
  next h => rw [Nat.min_eq_right (Nat.le_of_lt h)]
  next h => rw [Nat.min_eq_left (Nat.not_lt.mp h)]

theorem later_positionAt (hi : onBoundary i t) (hj : onBoundary j t) :
    (positionAt p t i).later (positionAt p t j) = positionAt p t (max i j) := by
  rw [Position.later]
  simp only [positionAt_lt_iff hi hj]
  split
  next h => rw [Nat.max_eq_right (Nat.le_of_lt h)]
  next h => rw [Nat.max_eq_left (Nat.not_lt.mp h)]

end Text

theorem Span.contains_iff {s : Span} {i : Nat} :
    s.contains i = true ↔ s.start ≤ i ∧ i < s.stop := by
  rw [Span.contains, Bool.and_eq_true, decide_eq_true_eq, decide_eq_true_eq]

def Span.Within (s t : Span) : Prop := t.start ≤ s.start ∧ s.stop ≤ t.stop

def LineRange.Within (r s : LineRange) : Prop := s.start ≤ r.start ∧ r.stop ≤ s.stop

namespace Text

variable {p : Position} {t : Text} {i : Nat}

structure Region (t : Text) where
  start : Nat
  stop : Nat
  start_le_stop : start ≤ stop
  onStart : onBoundary start t
  onStop : onBoundary stop t

namespace Region

def location (p : Position) (r : Region t) : Location :=
  ⟨⟨r.start, r.stop⟩, ⟨positionAt p t r.start, positionAt p t r.stop⟩⟩

def merge (r q : Region t) : Region t where
  start := min r.start q.start
  stop := max r.stop q.stop
  start_le_stop := by
    have h := r.start_le_stop
    omega
  onStart := onBoundary_min r.onStart q.onStart
  onStop := onBoundary_max r.onStop q.onStop

variable (r q : Region t)

theorem within_iff : (r.location p).span.Within (q.location p).span ↔
    (r.location p).range.Within (q.location p).range :=
  and_congr (positionAt_le_iff q.onStart r.onStart).symm (positionAt_le_iff r.onStop q.onStop).symm

theorem merge_location : (r.location p).merge (q.location p) = (r.merge q).location p := by
  rw [Location.merge, LineRange.merge]
  simp only [location, earlier_positionAt r.onStart q.onStart, later_positionAt r.onStop q.onStop]
  rfl

theorem contains_iff (hi : onBoundary i t) :
    (r.location p).range.contains (positionAt p t i) = true ↔
      (r.location p).span.contains i = true ∨ r.start = r.stop ∧ i = r.start := by
  have hspan : (r.location p).span.contains i = true ↔ r.start ≤ i ∧ i < r.stop :=
    Span.contains_iff
  have hstart := positionAt_le_iff (p := p) r.onStart hi
  have hstop := positionAt_lt_iff (p := p) hi r.onStop
  rw [hspan]
  by_cases hempty : r.start = r.stop
  · have hrange : (r.location p).range.start = (r.location p).range.stop :=
      congrArg (positionAt p t) hempty
    rw [LineRange.contains, if_pos hrange, decide_eq_true_eq]
    constructor
    · intro h
      exact .inr ⟨hempty, positionAt_inj hi r.onStart h⟩
    · intro h
      have hpoint : i = r.start := by omega
      exact congrArg (positionAt p t) hpoint
  · have hrange : (r.location p).range.start < (r.location p).range.stop :=
      positionAt_lt r.onStart r.onStop (Nat.lt_of_le_of_ne r.start_le_stop hempty)
    rw [LineRange.contains_iff hrange]
    simp only [location, hstart, hstop, hempty, false_and, or_false]

end Region

/-- Positions add up and keep the order of a text, and so they tell of two of its regions what bytes
tell. The places in the range of a region are those in its span, with its own start if it is
empty. -/
theorem regions_agree (p : Position) (t : Text) :
    (∀ s : Text, (p.advance s).Fits → p.advanceAtOnce? s = some (p.advance s)) ∧
      (∀ a b : Text, p.advance (a ++ b) = (p.advance a).advance b ∧
        ((p.advance a).Fits → (p.advance (a ++ b)).Fits →
          p.advanceAtOnce? (a ++ b) = (p.advanceAtOnce? a).bind (·.advanceAtOnce? b))) ∧
      (∀ i j, onBoundary i t → onBoundary j t → i < j → positionAt p t i < positionAt p t j) ∧
      (∀ r q : Region t,
        ((r.location p).span.Within (q.location p).span ↔
          (r.location p).range.Within (q.location p).range) ∧
        (r.location p).merge (q.location p) = (r.merge q).location p) ∧
      ∀ (r : Region t) (i : Nat), onBoundary i t →
        ((r.location p).range.contains (positionAt p t i) = true ↔
          (r.location p).span.contains i = true ∨ r.start = r.stop ∧ i = r.start) := by
  refine ⟨fun s => Position.advanceAtOnce?_eq, fun a b => ⟨Position.advance_append p a b, ?_⟩,
    fun i j hi hj => positionAt_lt hi hj, fun r q => ⟨r.within_iff q, r.merge_location q⟩,
    fun r i hi => r.contains_iff hi⟩
  exact Position.advanceAtOnce?_append

theorem regions_agree_empty_line :
    Position.advanceAtOnce? ⟨7, 3⟩ "é\nab\n\nx".toList = some ⟨10, 1⟩ ∧
      Position.advanceAtOnce? ⟨7, 3⟩ ("é\nab\n".toList ++ "\nx".toList) =
        (Position.advanceAtOnce? ⟨7, 3⟩ "é\nab\n".toList).bind (·.advanceAtOnce? "\nx".toList) ∧
      positionAt ⟨7, 3⟩ "é\nab\n\nx".toList 5 < positionAt ⟨7, 3⟩ "é\nab\n\nx".toList 6 ∧
      (Span.Within ⟨3, 6⟩ ⟨2, 7⟩ ↔
        LineRange.Within ⟨⟨8, 0⟩, ⟨9, 0⟩⟩ ⟨⟨7, 5⟩, ⟨10, 0⟩⟩) ∧
      (LineRange.contains ⟨⟨9, 0⟩, ⟨9, 0⟩⟩ ⟨9, 0⟩ = true ↔
        Span.contains ⟨6, 6⟩ 6 = true ∨ 6 = 6 ∧ 6 = 6) := by
  obtain ⟨hexact, hadds, horder, hwithin, hcontains⟩ :=
    regions_agree ⟨7, 3⟩ "é\nab\n\nx".toList
  refine ⟨hexact _ ⟨by decide, by decide⟩, ?_, ?_, ?_, ?_⟩
  · exact (hadds _ _).2 ⟨by decide, by decide⟩ ⟨by decide, by decide⟩
  · exact horder 5 6 (by decide) (by decide) (by decide)
  · exact (hwithin ⟨3, 6, by decide, by decide, by decide⟩
      ⟨2, 7, by decide, by decide, by decide⟩).1
  · exact hcontains ⟨6, 6, by decide, by decide, by decide⟩ 6 (by decide)

end Text

end Reparse
