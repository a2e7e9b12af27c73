import Reparse.Coordinates
import Reparse.Diagnostic.Code

/-!
# Diagnostics

A diagnostic is a fault with its message written out and its region fixed. A policy says which of
them a reader gets to see.
-/

namespace Reparse

structure Diagnostic where
  code : Code
  message : Text
  location : Location
  deriving DecidableEq, Repr

namespace Diagnostic

def ofReport (code : Code) (args : List Text) (location : Location) : Diagnostic :=
  ⟨code, code.render args, location⟩

def severity (d : Diagnostic) : Severity := d.code.severity

def isError (d : Diagnostic) : Bool := d.severity = .error

def start (d : Diagnostic) : Nat := d.location.span.start

def render (d : Diagnostic) : Text :=
  d.severity.name ++ ['['] ++ d.code.label ++ "]: ".toList ++ d.message ++ " at ".toList ++
    d.location.range.start.render

end Diagnostic

structure Bag where
  contents : Array Diagnostic := #[]
  deriving DecidableEq, Repr

namespace Bag

def size (b : Bag) : Nat := b.contents.size

def emit (b : Bag) (d : Diagnostic) : Bag := ⟨b.contents.push d⟩

def hasErrors (b : Bag) : Bool := b.contents.any Diagnostic.isError

def toList (b : Bag) : List Diagnostic := b.contents.toList

def take (b : Bag) : List Diagnostic × Bag := (b.toList, {})

end Bag

/-- Which diagnostics are shown; a limit of 0 is none. -/
structure Policy where
  limit : Nat := 100
  warnings : Bool := true
  deriving DecidableEq, Repr

namespace Policy

def unlimited : Policy := { limit := 0 }

/-- Leaves out what the policy hides, orders the rest by where it starts, and cuts the list at the
limit. Diagnostics that start together keep their order. -/
def finish (p : Policy) (ds : List Diagnostic) : List Diagnostic :=
  let shown := if p.warnings then ds else ds.filter Diagnostic.isError
  let sorted := shown.mergeSort fun a b => a.start ≤ b.start
  if p.limit = 0 then sorted else sorted.take p.limit

end Policy

end Reparse
