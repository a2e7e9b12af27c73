import Reparse.Parser
import Reparse.TokenStream.Edit

/-!
# Documents

One source under edit, with everything that is known about it: its tokens, the memo of earlier
parses, and the results of the last parse until the next change.
-/

namespace Reparse

inductive LoadError
  | tooLarge (size : Nat)
  deriving DecidableEq, Repr

def LoadError.message : LoadError → Text
  | .tooLarge size =>
    "source is ".toList ++ Text.ofNat size ++ " bytes, more than a u32 offset can address".toList

structure Parsed where
  program : Program Info
  diagnostics : List Diagnostic
  counts : MemoCounts
  deriving Repr

structure Document where
  policy : Policy := {}
  stream : TokenStream := .ofSource []
  memo : Memo := .empty
  parsed? : Option Parsed := none

namespace Document

def source (d : Document) : Text := d.stream.source

def load (d : Document) (source : Text) : EStateM.Result LoadError Document Unit :=
  let size := Text.size source
  if maxCoordinate < size then .error (.tooLarge size) d
  else .ok () { d with stream := .ofSource source, memo := .empty, parsed? := none }

/-- Exchanges the `count` bytes from `start` on for `inserted`. What is kept in the memo for tokens
that leave is dropped. -/
def edit (d : Document) (start count : Nat) (inserted : Text) :
    EStateM.Result EditError Document Unit :=
  match d.stream.edit start count inserted with
  | .error e stream => .error e { d with stream }
  | .ok mutation stream =>
    let (_, memo) := d.memo.forget mutation.removed
    .ok () { d with stream, memo, parsed? := none }

def run (d : Document) : Parsed × TokenStream × Memo :=
  let (result, stream, memo) := Reparse.parse d.stream d.memo
  let syntactic := result.reports.map (Report.diagnostic stream.timeline.resolve)
  (⟨result.program, d.policy.finish (stream.diagnostics ++ syntactic), result.counts⟩, stream, memo)

/-- The results for the present source. A source is parsed once. -/
def parse (d : Document) : Parsed × Document :=
  match d.parsed? with
  | some parsed => (parsed, d)
  | none =>
    let (parsed, stream, memo) := d.run
    (parsed, { d with stream, memo, parsed? := some parsed })

def nodeAt? (d : Document) (p : Position) : Option (NodeSort × Location) × Document :=
  let (parsed, d) := d.parse
  (parsed.program.nodeAt? d.stream.timeline p, d)

def inspect (d : Document) : Text :=
  let bool (b : Bool) : Text := if b then "true".toList else "false".toList
  "Document \x7b config: DocumentConfig \x7b error_limit: ".toList ++ Text.ofNat d.policy.limit ++
    ", include_warnings: ".toList ++ bool d.policy.warnings ++ " \x7d, stream: ".toList ++
    d.stream.inspect ++ ", memo: ".toList ++ d.memo.inspect ++ ", parsed: ".toList ++
    bool d.parsed?.isSome ++ " \x7d".toList

end Document

end Reparse
