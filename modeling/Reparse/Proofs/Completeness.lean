import Reparse.Proofs.Grammar.Complete.Definitions
import Reparse.Proofs.MemoTransparency

/-!
# Completeness of parsing

The converse of soundness: where the words of a text spell a grammatical program, parsing the text
gives that program and reports no error. So the words settle the program, and how it is laid out and
commented does not matter.
-/

namespace Reparse

open Reparse.Parser

theorem bareProgram_of_spells (tokens : Array Token) {p : Program Unit}
    (hp : p.isGrammatical = true) (h : Spells p.spelling (Token.words tokens.toList) []) :
    (bareProgram tokens).2.Clean ∧ (bareProgram tokens).1.map Info.erase = p := by
  have hstart : At tokens 0 (Token.words tokens.toList) (.bare tokens 0) :=
    ⟨rfl, .empty, fun _ hr => absurd hr (Array.not_mem_empty _), Nat.le_refl 0, Nat.zero_le _, rfl⟩
  obtain ⟨hprogram, hend⟩ := Grammar.finds_program hp h _ hstart
  exact ⟨hend.clean, hprogram⟩

/-- Two grammatical programs with a spelling in common are the same. -/
theorem Program.eq_of_spells {p q : Program Unit} (hp : p.isGrammatical = true)
    (hq : q.isGrammatical = true) {tokens : List Token}
    (hp' : Spells p.spelling (Token.words tokens) [])
    (hq' : Spells q.spelling (Token.words tokens) []) : p = q :=
  (bareProgram_of_spells tokens.toArray hp hp').2.symm.trans
    (bareProgram_of_spells tokens.toArray hq hq').2

/-- Whatever has been done to a stream and its memo, if the words of the stream spell a grammatical
program, a parse gives that program up to annotations and reports no error. No other program is
spelled by these words. -/
theorem Session.parse_of_spells (p : Program Unit) (hp : p.isGrammatical = true) :
    (∀ (source : Text) (ops : List SessionOp),
      let s := (Session.ofSource source).run ops
      Spells p.spelling (Token.words s.stream.readAll.tokens.toList) [] →
        (∀ r ∈ (parse s.stream s.memo).1.reports, r.code.severity ≠ .error) ∧
          (parse s.stream s.memo).1.program.map Info.erase = p) ∧
    ∀ (tokens : List Token) (q : Program Unit), q.isGrammatical = true →
      Spells p.spelling (Token.words tokens) [] → Spells q.spelling (Token.words tokens) [] →
        q = p := by
  constructor
  · intro source ops s hspells
    have hvalid : s.Valid := (Session.valid_ofSource source).run ops
    have hread := hvalid.follows (TokenStream.follows_readAll hvalid.numbered)
    obtain ⟨hprogram, hreports⟩ := parse_eq_bare hvalid.numbered (Session.trusted hvalid) hread.memo
    obtain ⟨hclean, herased⟩ := bareProgram_of_spells _ hp hspells
    rw [hprogram, hreports]
    exact ⟨fun r hr => hclean r (Array.mem_toList_iff.mp hr), herased⟩
  · exact fun tokens q hq hp' hq' => Program.eq_of_spells hq hp hq' hp'

def Program.leavingLoop : Program Unit where
  definitions :=
    [.global (.named ['t'] ()) none (.literal (.string ['\n']) ()) (),
      .function (.named ['f'] ()) [⟨.named ['a'] (), none, ()⟩] none
        (.braces [.loop (.name (.named ['a'] ()) ()) (.braces [.break ()] ()) ()] ()) ()]
  info := ()

theorem Session.parse_of_spells_leavingLoop :
    let s := (Session.ofSource "let t=\"\\n\";fn f(a,){while a{break;}}".toList).run
      [.parse, .edit 11 0 "/* on */".toList]
    Program.leavingLoop.isGrammatical = true ∧
      Spells Program.leavingLoop.spelling (Token.words s.stream.readAll.tokens.toList) [] ∧
      ((∀ r ∈ (parse s.stream s.memo).1.reports, r.code.severity ≠ .error) ∧
        (parse s.stream s.memo).1.program.map Info.erase = Program.leavingLoop) ∧
      ∀ q : Program Unit, q.isGrammatical = true →
        Spells q.spelling (Token.words s.stream.readAll.tokens.toList) [] →
          q = Program.leavingLoop := by
  have hp : Program.leavingLoop.isGrammatical = true := by decide
  have hslots : Program.leavingLoop.spelling =
      [.mark .letWord, .word ⟨.identifier, ['t']⟩, .mark .assign,
        .string (Grammar.unescape "\"\\n\"".toList), .mark .semicolon, .mark .fnWord,
        .word ⟨.identifier, ['f']⟩, .mark .leftParen, .word ⟨.identifier, ['a']⟩, .comma?,
        .mark .rightParen, .mark .leftBrace, .mark .whileWord, .word ⟨.identifier, ['a']⟩,
        .mark .leftBrace, .mark .breakWord, .mark .semicolon, .mark .rightBrace,
        .mark .rightBrace] := by
    decide
  have hwords : Token.words ((Session.ofSource "let t=\"\\n\";fn f(a,){while a{break;}}".toList).run
        [.parse, .edit 11 0 "/* on */".toList]).stream.readAll.tokens.toList =
      [.mark .letWord, ⟨.identifier, ['t']⟩, .mark .assign, ⟨.string, "\"\\n\"".toList⟩,
        .mark .semicolon, .mark .fnWord, ⟨.identifier, ['f']⟩, .mark .leftParen,
        ⟨.identifier, ['a']⟩, .mark .comma, .mark .rightParen, .mark .leftBrace, .mark .whileWord,
        ⟨.identifier, ['a']⟩, .mark .leftBrace, .mark .breakWord, .mark .semicolon,
        .mark .rightBrace, .mark .rightBrace] := by
    decide +kernel
  have hspells : Spells Program.leavingLoop.spelling
      (Token.words ((Session.ofSource "let t=\"\\n\";fn f(a,){while a{break;}}".toList).run
        [.parse, .edit 11 0 "/* on */".toList]).stream.readAll.tokens.toList) [] := by
    rw [hslots, hwords]
    exact .word <| .word <| .word <| .string <| .word <| .word <| .word <| .word <| .word <|
      .comma <| .word <| .word <| .word <| .word <| .word <| .word <| .word <| .word <| .word .nil
  exact ⟨hp, hspells, (Session.parse_of_spells Program.leavingLoop hp).1
    "let t=\"\\n\";fn f(a,){while a{break;}}".toList [.parse, .edit 11 0 "/* on */".toList] hspells,
    fun q hq hq' => (Session.parse_of_spells Program.leavingLoop hp).2 _ q hq hspells hq'⟩

end Reparse
