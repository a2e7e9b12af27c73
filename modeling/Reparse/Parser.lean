import Reparse.Grammar.Definitions

/-!
# Parsing

Parsing a stream with a memo from earlier parses, which saves the work on tokens that have not
changed. The memo comes back with the results of this parse in it.
-/

namespace Reparse

structure ParseResult where
  program : Program Info
  reports : List (Report Anchor)
  counts : MemoCounts
  deriving Repr

/-- Parses a stream to its end, reading what has not been read. -/
def parse (stream : TokenStream) (memo : Memo) : ParseResult × TokenStream × Memo :=
  let whole := stream.readAll
  let context : ParseContext := { tokens := whole.tokens, nextId := whole.nextId }
  let start : ParseState := { read := stream.tokens.size, memo }
  let (program, s) := (Grammar.program.run context).run start
  (⟨program, s.reports.toList, { s.counts with entries := s.memo.size }⟩, whole, s.memo)

end Reparse
