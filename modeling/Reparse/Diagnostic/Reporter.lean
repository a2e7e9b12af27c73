import Reparse.Diagnostic
import Reparse.Text.Quoted

/-!
# Reports

A report names what it is about by an anchor instead of fixed coordinates, so it can be resolved
again after the text has moved. A reporter records reports and hands the diagnostics they resolve to
at that moment to its sink, unless it is muted or has none.
-/

namespace Reparse

/-- A recorded fault. Without an anchor it is about the start of the text. -/
structure Report (α : Type) where
  code : Code
  args : List Text
  anchor : Option α
  deriving DecidableEq, Repr

namespace Report

variable {α : Type}

def location (locate : α → Location) (r : Report α) : Location :=
  (r.anchor.map locate).getD .origin

def diagnostic (locate : α → Location) (r : Report α) : Diagnostic :=
  .ofReport r.code r.args (r.location locate)

def inspect (locate : α → Location) (r : Report α) : Text :=
  "TrackedReport \x7b code: ".toList ++ r.code.label ++ ", args: [".toList ++
    ((r.args.map Text.quoted).intersperse ", ".toList).flatten ++
    "], location: ".toList ++ (r.location locate).inspect ++ " \x7d".toList

end Report

structure Reporter (α : Type) where
  recorded : Array (Report α) := #[]
  focus : Option α := none
  muted : Bool := false
  sink : Option Bag := some {}

namespace Reporter

variable {α : Type}

def sinkless : Reporter α := { sink := none }

def record (r : Reporter α) (report : Report α) : Reporter α :=
  { r with recorded := r.recorded.push report }

def replay (locate : α → Location) (r : Reporter α) (report : Report α) : Reporter α :=
  { r.record report with
    sink := if r.muted then r.sink else r.sink.map fun b => b.emit (report.diagnostic locate) }

def reportOn (locate : α → Location) (r : Reporter α) (anchor : α) (code : Code)
    (args : List Text) : Reporter α :=
  r.replay locate ⟨code, args, some anchor⟩

def report (locate : α → Location) (r : Reporter α) (code : Code) (args : List Text) : Reporter α :=
  r.replay locate ⟨code, args, r.focus⟩

def focusOn (r : Reporter α) (anchor : α) : Reporter α := { r with focus := some anchor }

def truncate (r : Reporter α) (n : Nat) : Reporter α := { r with recorded := r.recorded.take n }

def take (r : Reporter α) : List (Report α) × Reporter α :=
  (r.recorded.toList, { r with recorded := #[] })

def clear (r : Reporter α) : Reporter α := { r with recorded := #[], focus := none }

def mute (r : Reporter α) (muted : Bool) : Reporter α := { r with muted }

def emptySink (r : Reporter α) : Reporter α := { r with sink := r.sink.map fun b => b.take.2 }

def diagnostics (locate : α → Location) (r : Reporter α) : List Diagnostic :=
  r.recorded.toList.map (Report.diagnostic locate)

def inspect (locate : α → Location) (r : Reporter α) : Text :=
  "TrackingReporter \x7b recorded: [".toList ++
    ((r.recorded.toList.map (Report.inspect locate)).intersperse ", ".toList).flatten ++
    "], muted: ".toList ++ (if r.muted then "true".toList else "false".toList) ++ ", .. \x7d".toList

end Reporter

end Reparse
