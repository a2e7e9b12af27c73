import Reparse.TokenStream.Mutation

/-!
# Edits

An edit exchanges a run of bytes. It is widened to whole tokens and further back to layout: a token
that could merge with the new text is cut again with it.
-/

namespace Reparse

/-- Why an edit is refused. The checks are made in this order. -/
inductive EditError
  | outOfBounds (start stop size : Nat)
  | notOnBoundary (offset : Nat)
  | tooLarge (size : Nat)
  deriving DecidableEq, Repr

def EditError.message : EditError → Text
  | .outOfBounds start stop size =>
    "edit range ".toList ++ Text.ofNat start ++ "..".toList ++ Text.ofNat stop ++
      " is outside the source (length ".toList ++ Text.ofNat size ++ ")".toList
  | .notOnBoundary offset =>
    "offset ".toList ++ Text.ofNat offset ++ " is not on a character boundary".toList
  | .tooLarge size =>
    "edited source would be ".toList ++ Text.ofNat size ++
      " bytes, more than a u32 offset can address".toList

/-- The end of a run of bytes; an end beyond the 64-bit numbers counts as the last of them. -/
def runEnd (start count : Nat) : Nat := min (start + count) 0xFFFFFFFFFFFFFFFF

namespace TokenStream

def checkEdit (s : TokenStream) (start count : Nat) (inserted : Text) : Except EditError Unit :=
  let size := Text.size s.source
  let stop := runEnd start count
  let newSize := size - count + Text.size inserted
  if size < stop then .error (.outOfBounds start stop size)
  else if !Text.onBoundary start s.source then .error (.notOnBoundary start)
  else if !Text.onBoundary stop s.source then .error (.notOnBoundary stop)
  else if maxCoordinate < newSize then .error (.tooLarge newSize)
  else .ok ()

/-- How many tokens there are before the first whose start fails `p`. -/
def countStarts (s : TokenStream) (p : Nat → Bool) : Nat :=
  (s.tokens.toList.takeWhile fun t => p (s.location t).span.start).length

def layoutBefore (s : TokenStream) : Nat → Nat
  | 0 => 0
  | n + 1 => if s.tokens[n]?.any fun t => t.kind.isLayout then n + 1 else s.layoutBefore n

/-- The first token that an edit at byte `start` cuts again: the nearest layout token before the
token that holds the byte. -/
def firstAffected (s : TokenStream) (start : Nat) : Nat :=
  s.layoutBefore (s.countStarts (· ≤ start) - 1) - 1

def affected (s : TokenStream) (start stop : Nat) : Nat × Nat :=
  let first := s.firstAffected start
  (first, s.countStarts (· < stop) - first)

/-- Exchanges the `count` bytes from `start` on for `inserted`. The stream is checked before anything
of it is read. -/
def edit (s : TokenStream) (start count : Nat) (inserted : Text) :
    EStateM.Result EditError TokenStream Mutation :=
  match s.checkEdit start count inserted with
  | .error e => .error e s
  | .ok () =>
    let s := s.readAllMuted
    let (mutation, s) :=
      if s.tokens.isEmpty then s.mutate 0 0 inserted
      else
        let stop := runEnd start count
        let (first, number) := s.affected start stop
        let before := Text.slice (s.startOf first).1 start s.source
        let behind := Text.slice stop (s.endOf first number).1 s.source
        s.mutate first number (before ++ inserted ++ behind)
    .ok mutation s

end TokenStream

end Reparse
