import Reparse.Text.Quoted
import Reparse.Timeline
import Reparse.Token.Kind

/-!
# Tokens

A token is a kind and a text that was cut out of a source, with a number that tells it from all
other tokens of its stream. Where it sits is kept by a timeline, so that a token never changes when
the text around it does.
-/

namespace Reparse

/-- Tokens are numbered as they are made; a number is never used again. -/
abbrev TokenId := Nat

structure Token where
  id : TokenId
  kind : Kind
  text : Text
  deriving DecidableEq, Repr

namespace Token

def size (t : Token) : Nat := Text.size t.text

def isTrivia (t : Token) : Bool := t.kind.isTrivia

end Token

def Placement.location (p : Placement) (size : Nat) : Location :=
  ⟨⟨p.start, p.start + size⟩, ⟨p.startPos, p.endPos⟩⟩

def Placement.locationBehind (p : Placement) (size : Nat) : Location :=
  .point (p.start + size) p.endPos

def Placement.ofText (start : Nat) (startPos : Position) (text : Text) : Placement :=
  ⟨start, startPos, startPos.advance text⟩

/-- What a token is and where it sits, without the number it has in its stream. Two tokens are taken
for the same if they agree in this. -/
structure PlacedToken where
  kind : Kind
  text : Text
  location : Location
  deriving DecidableEq, Repr

def PlacedToken.inspect (t : PlacedToken) : Text :=
  t.kind.inspect ++ [' '] ++ Text.quoted t.text ++ " @".toList ++ t.location.span.render

def Timeline.placed (t : Timeline) (slot : Nat) (token : Token) : PlacedToken :=
  ⟨token.kind, token.text, (t.placement slot).location token.size⟩

def Timeline.location (t : Timeline) (token : Token) : Location :=
  (t.placement token.id).location token.size

def Timeline.locationBehind (t : Timeline) (token : Token) : Location :=
  (t.placement token.id).locationBehind token.size

end Reparse
