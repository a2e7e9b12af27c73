import Reparse.Proofs.Grammar.Spelling
import Reparse.Proofs.MemoExactness

/-!
# Kept results hang on what was looked at

An entry says how far its rule looked. Wherever the same words are found over that distance, in the
same stream or in another, running the rule files the same entry again: neither the words in front
of the key nor those behind the boundary show in it.
-/

namespace Reparse

namespace Grammar

open Reparse.Parser

def kept : Rule → Parser Outcome
  | .definition => outcome definition
  | .statement => outcome statement
  | .block => outcome (block statement)
  | .expression => outcome expression
  | .type => outcome typeExpression

theorem alike_kept {w : Window} (rule : Rule) : AlikeStep w 0 (kept rule) (kept rule) := by
  cases rule with
  | definition => exact alike_outcome alike_definition
  | statement => exact alike_outcome alike_statement
  | block => exact alike_outcome (alike_block fun _ _ => nested_statement)
  | expression => exact alike_outcome alike_expression
  | type => exact alike_outcome alike_typeExpression

section

variable {β : Type} [RuleNode β] {c : ParseContext} {s : ParseState} {t : Token}

theorem eval_outcome (p : Parser (Option β)) (c : ParseContext) (s : ParseState) :
    (outcome p).eval c s = (((p.eval c s).1.map RuleNode.wrap).getD .noMatch, (p.eval c s).2) := rfl

theorem eval_remembered_readPast (body : Parser (Option β)) (c : ParseContext) (s : ParseState) :
    (remembered body).eval c (readPast c s.cursor s) = (remembered body).eval c s := by
  have hcursor : (readPast c s.cursor s).cursor = s.cursor := rfl
  have hpast : readPast c s.cursor (readPast c s.cursor s) = readPast c s.cursor s := by
    simp [readPast]
  generalize hs' : readPast c s.cursor s = s' at hcursor hpast
  cases ht : c.tokens[s.cursor]? with
  | none =>
    have ht' : c.tokens[s'.cursor]? = none := by rw [hcursor, ht]
    rw [eval_remembered_none ht, eval_remembered_none ht', hcursor, hpast, hs']
  | some t =>
    have ht' : c.tokens[s'.cursor]? = some t := by rw [hcursor, ht]
    simp only [remembered, eval_bind, eval_get, eval_tokenAt, ht', ht]
    rw [hcursor, hpast, hs']

theorem exists_stored_remembered (body : Parser (Option β)) (ht : c.tokens[s.cursor]? = some t)
    (hmemo : s.memo = .empty) :
    ∃ e, ((remembered body).eval c s).2.memo.get? t.id (RuleNode.rule β) c.flags = some e := by
  obtain ⟨read, -, -, -, ⟨e, hget, -⟩ | ⟨-, heval⟩⟩ := eval_remembered_some body ht
  · rw [hmemo, Memo.get?_empty] at hget
    cases hget
  · rw [heval, eval_runAndFile]
    exact ⟨_, Memo.get?_insert⟩

structure Stores (rule : Rule) (p : Parser Outcome) : Prop where
  readPast : ∀ c s, p.eval c (readPast c s.cursor s) = p.eval c s
  stored : ∀ {c : ParseContext} {s : ParseState} {t : Token}, c.tokens[s.cursor]? = some t →
    s.memo = .empty → ∃ e, (p.eval c s).2.memo.get? t.id rule c.flags = some e

theorem stores_remembered (body : Parser (Option β)) :
    Stores (RuleNode.rule β) (outcome (remembered body)) where
  readPast c s := by rw [eval_outcome, eval_outcome, eval_remembered_readPast]
  stored ht hmemo := by
    rw [eval_outcome]
    exact exists_stored_remembered body ht hmemo

theorem stores_maxDepth {within : Nat → Parser (Option β)}
    {body : Parser (Option β) → Parser (Option β)}
    (h : ∀ d, within (d + 1) = remembered (body (within d))) :
    Stores (RuleNode.rule β) (outcome (do within (← maxDepth))) where
  readPast c s := by
    rw [eval_outcome, eval_outcome, eval_maxDepth, eval_maxDepth, h, eval_remembered_readPast]
  stored ht hmemo := by
    rw [eval_outcome, eval_maxDepth, h]
    exact exists_stored_remembered _ ht hmemo

theorem stores_kept (rule : Rule) : Stores rule (kept rule) := by
  cases rule with
  | definition => exact stores_remembered anyDefinition
  | statement => exact stores_maxDepth nesting_statement.succ
  | block => exact stores_remembered (bracedStatements statement)
  | expression => exact stores_maxDepth nesting_expression.succ
  | type => exact stores_maxDepth nesting_type.succ

end

end Grammar

open Reparse.Parser

/-- Runs a rule at index `i` of a stream, with an empty memo. -/
def TokenStream.runRule (s : TokenStream) (rule : Rule) (flags : Flags) (i : Nat) :
    Outcome × ParseState :=
  (Grammar.kept rule).eval ⟨s.readAll.tokens, s.readAll.nextId, flags⟩
    { cursor := i, reach := i, read := s.tokens.size, memo := .empty }

theorem filed_runRule {s : TokenStream} (hs : s.Numbered) (rule : Rule) (flags : Flags) {i : Nat}
    {key : TokenId} (hkey : idAt s.readAll.tokens i = some key) :
    ∃ e, (s.runRule rule flags i).2.memo.get? key rule flags = some e ∧
      e.Filed s.readAll.tokens s.readAll.nextId key i ∧ e.rule = rule ∧ e.flags = flags := by
  have hread := (TokenStream.follows_readAll hs).numbered
  have hsize : s.tokens.size ≤ s.readAll.tokens.size := TokenStream.size_le_readMore ..
  obtain ⟨t, ht, rfl⟩ := Entry.id_of_idAt hkey
  obtain ⟨e, hget⟩ := (Grammar.stores_kept rule).stored
    (c := ⟨s.readAll.tokens, s.readAll.nextId, flags⟩)
    (s := { cursor := i, reach := i, read := s.tokens.size, memo := .empty }) ht rfl
  refine ⟨e, hget, ?_⟩
  obtain ⟨hmem, hrule, hflags⟩ := Memo.mem_bucket_of_get? hget
  refine ⟨?_, hrule, hflags⟩
  -- With entries trusted that were filed at their key, all entries left behind are of that kind.
  have hE : Trusted (fun key e => ∃ i, e.Filed s.readAll.tokens s.readAll.nextId key i)
      s.readAll.tokens s.readAll.nextId :=
    ⟨fun ⟨j, hfiled⟩ hstart _ => idAt_inj hread.nodup hfiled.key hstart ▸ hfiled.describes,
      fun hfiled => ⟨_, hfiled⟩⟩
  have hlt := lt_of_idAt hkey
  have hseen : i < max s.tokens.size (min (i + 1) s.readAll.tokens.size) := by omega
  have htwins : Twins (.same s.readAll.tokens i) s.readAll.nextId
      (fun key e => ∃ i, e.Filed s.readAll.tokens s.readAll.nextId key i) _ _ _ _ :=
    .start id (Nat.le_of_lt hlt) (by omega) (.inl hseen)
      ((TokenStream.ascending_readMore _ hs).mono (Nat.le_max_left ..))
      (.inr fun t ht => hread.lt_next t (Array.mem_toList_iff.mpr ht)) .empty
  have hmatch := (Grammar.alike_kept rule).twin flags hE htwins (Nat.le_refl i) (Nat.le_refl i)
    (Window.agrees_same ..)
  rw [← (Grammar.stores_kept rule).readPast] at hmem
  obtain ⟨j, hfiled⟩ := hmatch.twins.right_memo _ _ hmem
  exact idAt_inj hread.nodup hfiled.key hkey ▸ hfiled

/-- Over `n` slots, a renumbering takes the tokens from index `i` of the first sequence to those from
index `j` of the second. -/
def Pairs (A B : Array Token) (i j n : Nat) (ρ : TokenId → TokenId) : Prop :=
  ∀ d < n, ∀ id, idAt A (i + d) = some id → idAt B (j + d) = some (ρ id)

section

variable {A B : Array Token} {i j n : Nat} {ρ : TokenId → TokenId}

theorem exists_pairs (hA : (A.toList.map Token.id).Nodup)
    (hwords : ∀ d < n, B[j + d]?.map Token.word = A[i + d]?.map Token.word) :
    ∃ ρ, Pairs A B i j n ρ := by
  have hpartner : ∀ id, ∃ id', ∀ d < n, idAt A (i + d) = some id → idAt B (j + d) = some id' := by
    intro id
    by_cases hid : ∃ d < n, idAt A (i + d) = some id
    · obtain ⟨d, hd, hid⟩ := hid
      obtain ⟨t, ht, -⟩ := Entry.id_of_idAt hid
      have hword := hwords d hd
      rw [ht] at hword
      obtain ⟨u, hu, -⟩ := Option.map_eq_some_iff.mp hword
      refine ⟨u.id, fun k hk hid' => ?_⟩
      have hkd : i + k = i + d := idAt_inj hA hid' hid
      rw [Nat.add_left_cancel hkd, idAt, hu]
      rfl
    · exact ⟨0, fun d hd hid' => absurd ⟨d, hd, hid'⟩ hid⟩
  choose ρ hρ using hpartner
  exact ⟨ρ, fun d hd id hid => hρ id d hd hid⟩

theorem Pairs.slot (hρ : Pairs A B i j n ρ) {d : Nat} (hd : d < n)
    (hword : B[j + d]?.map Token.word = A[i + d]?.map Token.word) :
    B[j + d]? = renumber ρ A[i + d]? := by
  cases ht : A[i + d]? with
  | none =>
    rw [ht] at hword
    exact Option.map_eq_none_iff.mp hword
  | some t =>
    have hid := hρ d hd t.id (by rw [idAt, ht]; rfl)
    obtain ⟨u, hu, huid⟩ := Entry.id_of_idAt hid
    rw [ht, hu] at hword
    have hsame : u.word = t.word := Option.some.inj hword
    have hkind : u.kind = t.kind := congrArg Word.kind hsame
    have htext : u.text = t.text := congrArg Word.text hsame
    have hut : u = renumber ρ t := by
      obtain ⟨id, kind, text⟩ := u
      cases huid
      cases hkind
      cases htext
      rfl
    rw [hu, hut, Renumber.renumber_some]

theorem Pairs.agrees (hρ : Pairs A B i j n ρ) (hi : i < A.size) (hpos : 1 ≤ n)
    (hwords : ∀ d < n, B[j + d]?.map Token.word = A[i + d]?.map Token.word) :
    (Window.mk A B ρ i j).Agrees (i + n - 1) := by
  rw [Nat.add_sub_assoc hpos]
  exact Window.agrees_of_slots hi fun d hd =>
    hρ.slot (by omega) (hwords d (by omega))

end

/-- A rule is run at two places, with nothing on file. If the slots that the first run looked at hold
the same words at the second place, or both lie behind the last token, then the entries that are
filed differ by the numbers of these tokens alone. -/
theorem runRule_same_words (source₁ source₂ : Text) (ops₁ ops₂ : List SessionOp) (rule : Rule)
    (flags : Flags) (i j : Nat) (key₁ key₂ : TokenId) (e₁ : Entry) :
    let s₁ := ((Session.ofSource source₁).run ops₁).stream
    let s₂ := ((Session.ofSource source₂).run ops₂).stream
    let A := s₁.readAll.tokens
    let B := s₂.readAll.tokens
    idAt A i = some key₁ → idAt B j = some key₂ →
      (s₁.runRule rule flags i).2.memo.get? key₁ rule flags = some e₁ →
      (∀ d < e₁.lookahead, B[j + d]?.map Token.word = A[i + d]?.map Token.word) →
        (∃ ρ, Pairs A B i j e₁.lookahead ρ) ∧
        ∃ e₂, (s₂.runRule rule flags j).2.memo.get? key₂ rule flags = some e₂ ∧
          ∀ ρ, Pairs A B i j e₁.lookahead ρ →
            e₂.consumed = e₁.consumed ∧ e₂.lookahead = e₁.lookahead ∧
              e₂.outcome = renumber ρ e₁.outcome ∧ e₂.reports = renumber ρ e₁.reports ∧
              e₂.leftover = renumber ρ e₁.leftover := by
  intro s₁ s₂ A B hkey₁ hkey₂ hget hwords
  have hs₁ : s₁.Numbered := ((Session.valid_ofSource source₁).run ops₁).numbered
  have hs₂ : s₂.Numbered := ((Session.valid_ofSource source₂).run ops₂).numbered
  obtain ⟨e, he, hfiled₁, hrule₁, hflags₁⟩ := filed_runRule hs₁ rule flags hkey₁
  cases hget.symm.trans he
  obtain ⟨e₂, he₂, hfiled₂, hrule₂, hflags₂⟩ := filed_runRule hs₂ rule flags hkey₂
  have hA := (TokenStream.follows_readAll hs₁).numbered.nodup
  refine ⟨exists_pairs hA hwords, e₂, he₂, fun ρ hρ => ?_⟩
  -- Both entries describe bare runs, and these are alike where the words are the same.
  exact hfiled₁.describes.renumbered hfiled₂.describes (hrule₂.trans hrule₁.symm)
    (hflags₂.trans hflags₁.symm) (Nat.le_of_lt (lt_of_idAt hkey₁)) (Nat.le_of_lt (lt_of_idAt hkey₂))
    (hρ.agrees (lt_of_idAt hkey₁) hfiled₁.lookahead hwords)

theorem runRule_same_words_annotation :
    ∃ e₁ e₂,
      (((Session.ofSource "let y:A=1;".toList).run []).stream.runRule .type {} 4).2.memo.get?
        4 .type {} = some e₁ ∧ e₁.lookahead = 2 ∧
      (((Session.ofSource "A=".toList).run []).stream.runRule .type {} 0).2.memo.get?
        0 .type {} = some e₂ ∧ e₂.outcome = renumber (fun id => id - 4) e₁.outcome := by
  have hkey₁ : idAt ((Session.ofSource "let y:A=1;".toList).run []).stream.readAll.tokens 4 =
    some 4 := by decide +kernel
  have hkey₂ : idAt ((Session.ofSource "A=".toList).run []).stream.readAll.tokens 0 = some 0 := by
    decide +kernel
  have hstored :
      ((((Session.ofSource "let y:A=1;".toList).run []).stream.runRule .type {} 4).2.memo.get?
        4 .type {}).map Entry.lookahead = some 2 := by decide +kernel
  obtain ⟨e₁, he₁, hlookahead⟩ := Option.map_eq_some_iff.mp hstored
  have hwords : ∀ d < 2,
      ((Session.ofSource "A=".toList).run []).stream.readAll.tokens[0 + d]?.map Token.word =
        ((Session.ofSource "let y:A=1;".toList).run []).stream.readAll.tokens[4 + d]?.map
          Token.word := by decide +kernel
  have hpairs : ∀ d < 2,
      idAt ((Session.ofSource "let y:A=1;".toList).run []).stream.readAll.tokens (4 + d) =
        some (4 + d) ∧
      idAt ((Session.ofSource "A=".toList).run []).stream.readAll.tokens (0 + d) =
        some (4 + d - 4) := by decide +kernel
  rw [← hlookahead] at hwords hpairs
  obtain ⟨-, e₂, he₂, hsame⟩ := runRule_same_words "let y:A=1;".toList "A=".toList [] [] .type {} 4 0
    4 0 e₁ hkey₁ hkey₂ he₁ hwords
  refine ⟨e₁, e₂, he₁, hlookahead, he₂, (hsame _ fun d hd id hid => ?_).2.2.1⟩
  obtain ⟨h₁, h₂⟩ := hpairs d hd
  rw [hid] at h₁
  rw [h₂, Option.some.inj h₁]

end Reparse
