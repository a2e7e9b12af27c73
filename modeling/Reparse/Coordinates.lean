import Reparse.Text

/-!
# Coordinates

A region of a text is held in two forms side by side: a span of byte offsets and a range of line and
column positions. Lines count from 1, columns count the bytes before a character on its line, and
both forms leave out their end.
-/

namespace Reparse

/-- The largest offset, line or column: coordinates are 32-bit numbers. -/
def maxCoordinate : Nat := 0xFFFFFFFF

inductive SpanError
  | startTooLarge (offset : Nat)
  | endTooLarge (offset : Nat)
  deriving DecidableEq, Repr

def SpanError.message : SpanError → Text
  | .startTooLarge n => "span start ".toList ++ Text.ofNat n ++ " exceeds u32::MAX".toList
  | .endTooLarge n => "span end ".toList ++ Text.ofNat n ++ " exceeds u32::MAX".toList

structure Span where
  start : Nat
  stop : Nat
  deriving DecidableEq, Repr

namespace Span

def zero : Span := ⟨0, 0⟩

def ofOffsets (start stop : Nat) : Except SpanError Span :=
  if maxCoordinate < start then .error (.startTooLarge start)
  else if maxCoordinate < stop then .error (.endTooLarge stop)
  else .ok ⟨start, stop⟩

def point (offset : Nat) : Span := ⟨offset, offset⟩

def size (s : Span) : Nat := s.stop - s.start

def isEmpty (s : Span) : Bool := s.start = s.stop

def contains (s : Span) (offset : Nat) : Bool := s.start ≤ offset && offset < s.stop

def merge (s t : Span) : Span := ⟨min s.start t.start, max s.stop t.stop⟩

def render (s : Span) : Text := Text.ofNat s.start ++ "..".toList ++ Text.ofNat s.stop

end Span

structure Position where
  line : Nat
  column : Nat
  deriving DecidableEq, Repr

namespace Position

def origin : Position := ⟨1, 0⟩

instance : LE Position where
  le p q := p.line < q.line ∨ p.line = q.line ∧ p.column ≤ q.column

instance : LT Position where
  lt p q := p.line < q.line ∨ p.line = q.line ∧ p.column < q.column

theorem le_def {p q : Position} : p ≤ q ↔ p.line < q.line ∨ p.line = q.line ∧ p.column ≤ q.column :=
  Iff.rfl

theorem lt_def {p q : Position} : p < q ↔ p.line < q.line ∨ p.line = q.line ∧ p.column < q.column :=
  Iff.rfl

instance (p q : Position) : Decidable (p ≤ q) := decidable_of_iff _ le_def.symm

instance (p q : Position) : Decidable (p < q) := decidable_of_iff _ lt_def.symm

def compare (p q : Position) : Ordering :=
  if p < q then .lt else if p = q then .eq else .gt

def earlier (p q : Position) : Position := if q < p then q else p

def later (p q : Position) : Position := if p < q then q else p

def step (p : Position) (c : Char) : Position :=
  if c = '\n' then ⟨p.line + 1, 0⟩ else ⟨p.line, p.column + c.utf8Size⟩

def advance (p : Position) (t : Text) : Position := t.foldl step p

@[simp] theorem advance_nil (p : Position) : p.advance [] = p := rfl

@[simp] theorem advance_cons (p : Position) (c : Char) (t : Text) :
    p.advance (c :: t) = (p.step c).advance t := rfl

def render (p : Position) : Text := Text.ofNat p.line ++ [':'] ++ Text.ofNat p.column

end Position

structure LineRange where
  start : Position
  stop : Position
  deriving DecidableEq, Repr

namespace LineRange

def point (p : Position) : LineRange := ⟨p, p⟩

/-- An empty range contains its own start, so that a region without text can still be found. -/
def contains (r : LineRange) (p : Position) : Bool :=
  if r.start = r.stop then p = r.start else r.start ≤ p && p < r.stop

def merge (r s : LineRange) : LineRange :=
  ⟨r.start.earlier s.start, r.stop.later s.stop⟩

def render (r : LineRange) : Text := r.start.render ++ ['-'] ++ r.stop.render

end LineRange

structure Location where
  span : Span
  range : LineRange
  deriving DecidableEq, Repr

namespace Location

def origin : Location := ⟨.zero, .point .origin⟩

def point (offset : Nat) (p : Position) : Location := ⟨.point offset, .point p⟩

def merge (a b : Location) : Location := ⟨a.span.merge b.span, a.range.merge b.range⟩

def inspect (l : Location) : Text :=
  "Location \x7b span: ".toList ++ l.span.render ++ ", range: ".toList ++ l.range.render ++
    " \x7d".toList

end Location

end Reparse
