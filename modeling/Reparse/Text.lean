/-!
# Text

A text is a list of characters. Offsets into it count UTF-8 bytes, as editors send them, so the size
of a text is the sum of the sizes of its characters and an offset may fall inside a character.
-/

namespace Reparse

/-- Source text and everything cut out of it. -/
abbrev Text := List Char

namespace Text

def size : Text → Nat
  | [] => 0
  | c :: cs => c.utf8Size + size cs

@[simp] theorem size_nil : size [] = 0 := rfl

@[simp] theorem size_cons (c : Char) (cs : Text) : size (c :: cs) = c.utf8Size + size cs := rfl

@[simp] theorem size_append (a b : Text) : size (a ++ b) = size a + size b := by
  induction a with
  | nil => simp
  | cons c cs ih => simp [ih, Nat.add_assoc]

/-- The characters that start before byte `n`. -/
def takeBytes : Nat → Text → Text
  | 0, _ => []
  | _ + 1, [] => []
  | n + 1, c :: cs => c :: takeBytes (n + 1 - c.utf8Size) cs

/-- The characters that start at byte `n` or later. -/
def dropBytes : Nat → Text → Text
  | 0, cs => cs
  | _ + 1, [] => []
  | n + 1, c :: cs => dropBytes (n + 1 - c.utf8Size) cs

theorem takeBytes_append_dropBytes (n : Nat) (t : Text) : takeBytes n t ++ dropBytes n t = t := by
  induction t generalizing n with
  | nil => cases n <;> rfl
  | cons c cs ih =>
    cases n with
    | zero => rfl
    | succ n => simp [takeBytes, dropBytes, ih]

def onBoundary (n : Nat) (t : Text) : Bool :=
  size (takeBytes n t) = n

def splice (start stop : Nat) (inserted t : Text) : Text :=
  takeBytes start t ++ inserted ++ dropBytes stop t

def slice (start stop : Nat) (t : Text) : Text :=
  takeBytes (stop - start) (dropBytes start t)

def inRanges (n : Nat) : List (Nat × Nat) → Bool
  | [] => false
  | (low, high) :: ranges => low ≤ n && (n ≤ high || inRanges n ranges)

def ofNat (n : Nat) : Text := Nat.toDigits 10 n

end Text

end Reparse
