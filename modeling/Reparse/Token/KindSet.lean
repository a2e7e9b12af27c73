import Reparse.Token.Kind

/-!
# Sets of token kinds

A set of kinds is its membership test. After a fault the parser skips to the next token of such a
set.
-/

namespace Reparse

structure KindSet where
  contains : Kind → Bool

namespace KindSet

instance : Membership Kind KindSet where
  mem s k := s.contains k = true

theorem mem_def {k : Kind} {s : KindSet} : k ∈ s ↔ s.contains k = true := Iff.rfl

instance (k : Kind) (s : KindSet) : Decidable (k ∈ s) := decidable_of_iff _ mem_def.symm

def empty : KindSet := ⟨fun _ => false⟩

def insert (s : KindSet) (k : Kind) : KindSet := ⟨fun j => j = k || s.contains j⟩

def union (s t : KindSet) : KindSet := ⟨fun k => s.contains k || t.contains k⟩

def ofList (ks : List Kind) : KindSet := ⟨fun k => ks.contains k⟩

def toList (s : KindSet) : List Kind := Kind.all.filter s.contains

def isEmpty (s : KindSet) : Bool := s.toList.isEmpty

@[simp] theorem not_mem_empty (k : Kind) : k ∉ empty := by simp [mem_def, empty]

@[simp] theorem mem_insert {s : KindSet} {j k : Kind} : j ∈ s.insert k ↔ j = k ∨ j ∈ s := by
  simp [mem_def, insert]

@[simp] theorem mem_union {s t : KindSet} {k : Kind} : k ∈ s.union t ↔ k ∈ s ∨ k ∈ t := by
  simp [mem_def, union]

@[simp] theorem mem_ofList {ks : List Kind} {k : Kind} : k ∈ ofList ks ↔ k ∈ ks := by
  simp [mem_def, ofList]

@[simp] theorem mem_toList {s : KindSet} {k : Kind} : k ∈ s.toList ↔ k ∈ s := by
  simp [toList, mem_def, Kind.mem_all]

def definitionEnds : KindSet := ofList [.onWord, .fnWord, .letWord, .typeWord, .semicolon]

def statementEnds : KindSet :=
  ofList [.letWord, .ifWord, .whileWord, .returnWord, .breakWord, .continueWord, .leftBrace,
    .rightBrace, .semicolon]

end KindSet

end Reparse
