import Reparse.Coordinates

/-!
# Timelines

An edit moves everything behind it. A timeline records each such move once, as a shift, and keeps
for every registered piece of text the coordinates it last had together with the number of shifts
they include. The shifts recorded since are applied when somebody asks. A frozen piece has left the
text: it keeps the coordinates it had then.
-/

namespace Reparse

/-- The coordinates of a piece of text. -/
structure Placement where
  start : Nat
  startPos : Position
  endPos : Position
  deriving DecidableEq, Repr

/-- What an edit does to the coordinates behind it: pieces that start at `bytePos` or later move by
`byteOffset` bytes and `lineOffset` lines; on line `linePos`, where the removed text ended, columns
move by `columnOffset` as well. -/
structure Shift where
  bytePos : Nat
  byteOffset : Int
  linePos : Nat
  lineOffset : Int
  columnOffset : Int
  deriving DecidableEq, Repr

/-- A coordinate moved by `delta` stays within what a coordinate can be. -/
def moveCoordinate (n : Nat) (delta : Int) : Nat := min ((n : Int) + delta).toNat maxCoordinate

namespace Shift

def ofReplacement (start stop : Nat) (startPos stopPos : Position) (inserted : Text) : Shift :=
  let newStop := startPos.advance inserted
  { bytePos := stop
    byteOffset := (Text.size inserted : Int) - ((stop : Int) - start)
    linePos := stopPos.line
    lineOffset := (newStop.line : Int) - stopPos.line
    columnOffset := (newStop.column : Int) - stopPos.column }

def affects (m : Shift) (offset : Nat) : Bool := m.bytePos ≤ offset

def movePosition (m : Shift) (p : Position) : Position where
  line := moveCoordinate p.line m.lineOffset
  column := if p.line = m.linePos then moveCoordinate p.column m.columnOffset else p.column

def move (m : Shift) (p : Placement) : Placement :=
  if m.affects p.start then
    { start := moveCoordinate p.start m.byteOffset
      startPos := m.movePosition p.startPos
      endPos := m.movePosition p.endPos }
  else p

end Shift

def Placement.moveAll (p : Placement) (shifts : List Shift) : Placement :=
  shifts.foldl (fun q m => m.move q) p

/-- A registered piece: `placement` includes the first `applied` shifts of its timeline. -/
structure Marker where
  placement : Placement
  applied : Nat
  frozen : Bool
  deriving DecidableEq, Repr

/-- Recorded shifts, and the pieces that follow them; a piece is named by its slot. -/
structure Timeline where
  shifts : Array Shift := #[]
  markers : Array Marker := #[]

namespace Timeline

def shiftsSince (t : Timeline) (applied : Nat) : List Shift := t.shifts.toList.drop applied

def record (t : Timeline) (m : Shift) : Timeline := { t with shifts := t.shifts.push m }

/-- Registers a piece at its present coordinates. Earlier shifts do not move it. -/
def register (t : Timeline) (p : Placement) : Timeline :=
  { t with markers := t.markers.push ⟨p, t.shifts.size, false⟩ }

def upToDate (t : Timeline) (m : Marker) : Marker :=
  if m.frozen then m
  else
    { m with
      placement := m.placement.moveAll (t.shiftsSince m.applied)
      applied := t.shifts.size }

def settle (t : Timeline) (slot : Nat) : Timeline :=
  { t with markers := t.markers.modify slot t.upToDate }

def freeze (t : Timeline) (slot : Nat) : Timeline :=
  { t with markers := t.markers.modify slot fun m => { t.upToDate m with frozen := true } }

def placement? (t : Timeline) (slot : Nat) : Option Placement :=
  t.markers[slot]?.map fun m => (t.upToDate m).placement

def unplaced : Placement := ⟨0, .origin, .origin⟩

def placement (t : Timeline) (slot : Nat) : Placement := (t.placement? slot).getD unplaced

def inspect (t : Timeline) : Text :=
  "EditChain \x7b len: ".toList ++ Text.ofNat t.shifts.size ++ " \x7d".toList

end Timeline

end Reparse
