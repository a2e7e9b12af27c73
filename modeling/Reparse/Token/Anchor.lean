import Reparse.Diagnostic.Reporter
import Reparse.Token

/-!
# Anchors

What a report about tokens is about. An anchor names tokens, so the region it stands for moves with
them.
-/

namespace Reparse

inductive Anchor
  | token (t : Token)
  | tokens (first last : Token)
  | behind (t : Token)
  | fixed (l : Location)
  deriving DecidableEq, Repr

def Timeline.resolve (t : Timeline) : Anchor → Location
  | .token a => t.location a
  | .tokens a b => (t.location a).merge (t.location b)
  | .behind a => t.locationBehind a
  | .fixed l => l

end Reparse
