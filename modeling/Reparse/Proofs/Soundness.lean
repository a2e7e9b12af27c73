import Reparse.Proofs.Grammar.Sound.Definitions
import Reparse.Proofs.Grammar.Wholeness
import Reparse.Proofs.Lexeme.LexicalGrammar
import Reparse.Proofs.MemoTransparency
import Reparse.Proofs.TokenStream.Contents

/-!
# Soundness of parsing

If a parse reports no error, the words of the text are a spelling of the program that it gives, and
that program is whole and grammatical. The tokens come from the text, so the kind of a keyword or a
symbol settles its text.
-/

namespace Reparse

open Reparse.Parser

namespace Lexeme

def Proper (l : Lexeme) : Prop := ∀ text, l.kind.spelling? = some text → l.text = text

theorem proper_of_none {l : Lexeme} (h : l.kind.spelling? = none) : l.Proper := by
  intro text htext
  rw [h] at htext
  cases htext

theorem proper_of_some {l : Lexeme} (h : l.kind.spelling? = some l.text) : l.Proper := by
  intro text htext
  rw [h] at htext
  exact Option.some.inj htext

theorem word_proper (c : Char) (cs : Text) : (word c cs).Proper := by
  cases hk : Kind.keyword? (c :: wordCharacters cs) with
  | none => exact proper_of_none (by simp [word, hk, Kind.spelling?])
  | some k =>
    have hkind : (word c cs).kind = k := by simp [word, hk]
    refine proper_of_some ?_
    rw [hkind]
    exact spelling?_of_keyword? hk

theorem number_proper (c : Char) (cs : Text) : (number c cs).Proper := by
  refine proper_of_none ?_
  simp only [number]
  split <;> rfl

theorem symbol_proper (c : Char) (cs : Text) : (symbol c cs).Proper := by
  unfold symbol
  split
  next k _ hk => exact proper_of_some (spelling?_of_symbol? hk)
  next k _ hk => exact proper_of_some (spelling?_of_symbol? hk)
  next => exact proper_of_none rfl

theorem slash_proper (c : Char) (cs : Text) : (slash c cs).Proper := by
  unfold slash
  split
  · exact proper_of_none rfl
  · exact proper_of_none rfl
  · exact symbol_proper c []

theorem leading_proper (c : Char) (cs : Text) : (leading c cs).Proper := by
  unfold leading
  split
  · split
    · exact proper_of_none rfl
    · exact proper_of_none rfl
  · exact proper_of_none rfl
  · exact number_proper c cs
  · exact word_proper c cs
  · exact proper_of_none rfl
  · exact slash_proper c cs
  · exact symbol_proper c cs
  · exact symbol_proper c cs
  · split
    · exact word_proper c cs
    · exact proper_of_none rfl

theorem all_proper (t : Text) : ∀ l ∈ all t, l.Proper := by
  have key : ∀ fuel t, ∀ l ∈ takeLexemes fuel t, l.Proper := by
    intro fuel
    induction fuel with
    | zero => exact fun _ _ hl => absurd hl List.not_mem_nil
    | succ fuel ih =>
      intro t
      cases t with
      | nil => exact fun _ hl => absurd hl List.not_mem_nil
      | cons c cs =>
        simp only [takeLexemes]
        exact List.forall_mem_cons.mpr ⟨leading_proper c cs, ih _⟩
  exact key t.length t

end Lexeme

theorem TokenStream.ShowsAll.proper {lines : Bool} {s : TokenStream} (h : s.ShowsAll lines) :
    ∀ t ∈ s.tokens, t.word.Proper := by
  intro t ht
  have hmem : (t.kind, t.text) ∈ s.tokens.toList.map fun t => (t.kind, t.text) :=
    List.mem_map_of_mem (Array.mem_toList_iff.mpr ht)
  rw [h.1.words] at hmem
  obtain ⟨l, hl, heq⟩ := List.mem_map.mp hmem
  obtain ⟨hkind, htext⟩ := Prod.mk.inj heq
  have hproper := Lexeme.all_proper _ l hl
  rwa [Lexeme.Proper, hkind, htext] at hproper

theorem spells_bareProgram {tokens : Array Token} (hproper : ∀ t ∈ tokens, t.word.Proper)
    (hclean : (bareProgram tokens).2.Clean) :
    (bareProgram tokens).1.isGrammatical = true ∧
      Spells (bareProgram tokens).1.spelling (Token.words tokens.toList) [] := by
  have hstart : Plain tokens (.bare tokens 0) := ⟨hproper, rfl, .empty⟩
  have hreads : Reads tokens {} True (ahead tokens 0) Grammar.program _ := Grammar.reads_program
  exact (hreads.reads trivial hstart rfl hclean).2.2

/-- If no error is reported, the program is whole and grammatical, and all words of the text in
their order are a spelling of it. -/
theorem parse_spells (source : Text) :
    let result := parse (.ofSource source) .empty
    (∀ r ∈ result.1.reports, r.code.severity ≠ .error) →
      result.1.program.outline.IsWhole ∧ result.1.program.isGrammatical = true ∧
        Spells result.1.program.spelling (Token.words result.2.1.tokens.toList) [] := by
  intro result hclean
  have hvalid := Session.valid_ofSource source
  obtain ⟨hprogram, hreports⟩ :
      result.1.program = (bareProgram (TokenStream.ofSource source).readAll.tokens).1 ∧
        result.1.reports =
          (bareProgram (TokenStream.ofSource source).readAll.tokens).2.reports.toList :=
    parse_eq_bare hvalid.numbered (Session.trusted hvalid) Memo.Keeps.empty
  have hproper := (TokenStream.shows_ofSource true source).readAll.1.proper
  have hrun : (bareProgram (TokenStream.ofSource source).readAll.tokens).2.Clean := by
    intro r hr
    refine hclean r ?_
    rw [hreports]
    exact Array.mem_toList_iff.mpr hr
  obtain ⟨hgrammatical, hspells⟩ := spells_bareProgram hproper hrun
  rw [← hprogram] at hgrammatical hspells
  exact ⟨Program.isWhole_outline hgrammatical, hgrammatical, hspells⟩

theorem parse_spells_loop :
    let result := parse (.ofSource "fn f(a,){while a{break;}}".toList) .empty
    (∀ r ∈ result.1.reports, r.code.severity ≠ .error) ∧
      Spells result.1.program.spelling (Token.words result.2.1.tokens.toList) [] := by
  have hclean : (parse (.ofSource "fn f(a,){while a{break;}}".toList) .empty).1.reports = [] := by
    decide +kernel
  have hsevere : ∀ r ∈ (parse (.ofSource "fn f(a,){while a{break;}}".toList) .empty).1.reports,
      r.code.severity ≠ .error := by
    rw [hclean]
    exact fun _ hr => absurd hr List.not_mem_nil
  exact ⟨hsevere, (parse_spells _ hsevere).2.2⟩

end Reparse
