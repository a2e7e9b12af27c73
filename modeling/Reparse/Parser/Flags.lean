/-!
# Parse flags

What a rule has to know about the place it is used in. Rules of equal name and equal flags do the
same at the same tokens.
-/

namespace Reparse

structure Flags where
  /-- An opening brace starts no object literal here, because a block may follow. -/
  noObject : Bool := false
  inLoop : Bool := false
  inFunction : Bool := false
  deriving DecidableEq, Repr

namespace Flags

def adjust (f add remove : Flags) : Flags where
  noObject := (f.noObject || add.noObject) && !remove.noObject
  inLoop := (f.inLoop || add.inLoop) && !remove.inLoop
  inFunction := (f.inFunction || add.inFunction) && !remove.inFunction

def ofBits (n : Nat) : Flags := ⟨n.testBit 0, n.testBit 1, n.testBit 2⟩

def toBits (f : Flags) : Nat := f.noObject.toNat + 2 * f.inLoop.toNat + 4 * f.inFunction.toNat

end Flags

end Reparse
