import Reparse.Proofs.Grammar.Build.Definitions
import Reparse.Proofs.MemoTransparency

/-!
# Assembly of programs

Whatever has been done to a stream and its memo, a parse assembles its program from all tokens of
the stream.
-/

namespace Reparse

open Reparse.Parser

/-- What every bare run gives, a parse gives, whatever has been done to its stream and its memo. -/
theorem Session.Valid.parsed {s : Session} (h : s.Valid) {Q : Program Info → Trail → Prop}
    (hQ : Runs s.stream.readAll.tokens {} ⟨0, [], []⟩ Grammar.program Q) :
    ∃ b : Trail, b.reports = (parse s.stream s.memo).1.reports ∧
      Q (parse s.stream s.memo).1.program b := by
  have hread := h.follows (TokenStream.follows_readAll h.numbered)
  obtain ⟨hprogram, hreports⟩ := parse_eq_bare h.numbered (Session.trusted h) hread.memo
  have hrun := (hQ (.bare s.stream.readAll.tokens 0) ⟨rfl, .empty, Nat.zero_le _⟩ rfl).2
  rw [hprogram, hreports]
  exact ⟨_, rfl, hrun⟩

theorem Session.Valid.assembled {s : Session} (h : s.Valid) :
    ∃ f, (parse s.stream s.memo).1.reports = f.reports ∧
      Assembled s.stream.readAll.tokens (parse s.stream s.memo).1.program f := by
  obtain ⟨b, hreports, f, hf, hassembled⟩ := h.parsed Grammar.runs_program
  exact ⟨f, hreports ▸ hf, hassembled⟩

theorem TokenStream.Numbered.nodup_tokens {s : TokenStream} (h : s.Numbered) :
    s.tokens.toList.Nodup := .of_map Token.id h.nodup

end Reparse
