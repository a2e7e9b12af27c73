import Reparse.Token
import Reparse.Tree.Outline

/-!
# Parsed trees

The nodes of a parsed tree know the tokens they were read from and the comments that were found with
them. Where they are is a question to the timeline of the tokens.
-/

namespace Reparse

/-- The run of tokens from `first` through `last`. -/
structure Extent where
  first : Token
  last : Token
  deriving DecidableEq, Repr

def Extent.single (t : Token) : Extent := ⟨t, t⟩

structure Info where
  extent? : Option Extent := none
  comments : List Token := []
  deriving DecidableEq, Repr

/-- An annotation with all its tokens placed. Two trees are taken for the same if they agree with
their tokens placed. -/
structure PlacedInfo where
  extent? : Option (PlacedToken × PlacedToken)
  comments : List PlacedToken
  deriving DecidableEq, Repr

def PlacedInfo.location? (i : PlacedInfo) : Option Location :=
  i.extent?.map fun (first, last) => first.location.merge last.location

namespace Timeline

def extentLocation (t : Timeline) (s : Extent) : Location :=
  (t.location s.first).merge (t.location s.last)

def infoLocation? (t : Timeline) (i : Info) : Option Location := i.extent?.map t.extentLocation

def placeToken (t : Timeline) (token : Token) : PlacedToken := t.placed token.id token

def placeInfo (t : Timeline) (i : Info) : PlacedInfo where
  extent? := i.extent?.map fun s => (t.placeToken s.first, t.placeToken s.last)
  comments := i.comments.map t.placeToken

end Timeline

namespace Program

def placedRows (timeline : Timeline) (p : Program Info) : List (Row PlacedInfo) :=
  (p.outline.rows 0).map (Row.map timeline.placeInfo)

def nodeAt? (timeline : Timeline) (p : Program Info) (position : Position) :
    Option (NodeSort × Location) := do
  let covers (i : Info) : Bool := (timeline.infoLocation? i).any fun l => l.range.contains position
  let (form, info) ← p.outline.innermost? covers
  return (← form.sort?, ← timeline.infoLocation? info)

end Program

end Reparse
