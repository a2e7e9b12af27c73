import Reparse.Lexeme
import Reparse.Token.Anchor

/-!
# Token streams

A stream holds a source and the tokens read from its start so far. Tokens are read on demand; faults
found in them are reported as they are read. Tokens are numbered in the order they are made, and the
number of a token is also its slot on the timeline of the stream.
-/

namespace Reparse

/-- A point between two lexemes of a source, with the source behind it. -/
structure ReadPoint where
  offset : Nat
  position : Position
  rest : Text
  deriving DecidableEq, Repr

namespace ReadPoint

def start (source : Text) : ReadPoint := ⟨0, .origin, source⟩

def cut? (p : ReadPoint) : Option (Lexeme × ReadPoint) :=
  match p.rest with
  | [] => none
  | c :: cs =>
    let l := Lexeme.leading c cs
    some (l, ⟨p.offset + l.size, p.position.advance l.text, cs.drop l.rest.length⟩)

end ReadPoint

structure TokenStream where
  source : Text
  tokens : Array Token
  point : ReadPoint
  timeline : Timeline
  reporter : Reporter Anchor

namespace TokenStream

def ofSource (source : Text) : TokenStream where
  source := source
  tokens := #[]
  point := .start source
  timeline := {}
  reporter := {}

def nextId (s : TokenStream) : TokenId := s.timeline.markers.size

def isComplete (s : TokenStream) : Bool := s.point.rest.isEmpty

def location (s : TokenStream) (t : Token) : Location := s.timeline.location t

def place (s : TokenStream) (t : Token) : PlacedToken := s.timeline.placed t.id t

def make (s : TokenStream) (p : ReadPoint) (l : Lexeme) : Token × TokenStream :=
  (⟨s.nextId, l.kind, l.text⟩,
    { s with timeline := s.timeline.register (.ofText p.offset p.position l.text) })

def reportFault (s : TokenStream) (t : Token) (fault : Option Code) : TokenStream :=
  match fault with
  | none => s
  | some code =>
    let focused := s.reporter.focusOn (.token t)
    { s with reporter :=
        focused.report s.timeline.resolve code (Lexeme.faultArgs code t.text) }

def read (s : TokenStream) : Option Token × TokenStream :=
  match s.point.cut? with
  | none => (none, s)
  | some (l, next) =>
    let (t, s) := s.make s.point l
    (some t, { s.reportFault t l.fault with tokens := s.tokens.push t, point := next })

def readMore : Nat → TokenStream → TokenStream
  | 0, s => s
  | n + 1, s =>
    match s.read with
    | (none, s) => s
    | (some _, s) => readMore n s

def readTo (s : TokenStream) (i : Nat) : TokenStream := readMore (i + 1 - s.tokens.size) s

def readAll (s : TokenStream) : TokenStream := readMore s.point.rest.length s

/-- Reads the rest of the source without handing faults on. -/
def readAllMuted (s : TokenStream) : TokenStream :=
  let r := { s with reporter := s.reporter.mute true }.readAll
  { r with reporter := r.reporter.mute s.reporter.muted }

def diagnostics (s : TokenStream) : List Diagnostic := s.reporter.diagnostics s.timeline.resolve

def inspect (s : TokenStream) : Text :=
  "TokenStream \x7b len: ".toList ++ Text.ofNat s.tokens.size ++ ", complete: ".toList ++
    (if s.isComplete then "true".toList else "false".toList) ++ ", next_id: TokenId(".toList ++
    Text.ofNat s.nextId ++ "), .. \x7d".toList

end TokenStream

end Reparse
