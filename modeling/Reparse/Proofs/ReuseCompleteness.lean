import Reparse.Proofs.DefinitionEntries

/-!
# Reuse is complete

Whatever is done to a stream, a definition whose tokens are as they were is not parsed again. Its
entry still holds, and nothing that a parse does before it gets there can drop the entry: what is
looked at from further ahead, skipped or gone over is never the token that a definition starts at.
-/

namespace Reparse

open Reparse.Parser Reparse.Grammar

namespace Session

variable {σ : Session} {key : TokenId} {e : Entry} {b : Series (Definition Info)} {u : ParseState}

theorem Valid.exists_answer (h : σ.Valid)
    (hreaches : Reaches definitionTurn ⟨σ.stream.readAll.tokens, σ.stream.readAll.nextId, {}⟩ {}
      (definitionsStart ⟨σ.stream.readAll.tokens, σ.stream.readAll.nextId, {}⟩
        { read := σ.stream.tokens.size, memo := σ.memo }) b u)
    (hkey : idAt σ.stream.readAll.tokens u.cursor = some key)
    (hget : σ.memo.get? key .definition {} = some e) (hmatch : e.outcome ≠ .noMatch)
    (hholds : e.holdsAt (idAt σ.stream.readAll.tokens) u.cursor = true) :
    ∃ d t read, e.Finds d ∧ σ.stream.readAll.tokens[nextReal σ.stream.readAll.tokens u.cursor]? =
        some t ∧
      definition.eval ⟨σ.stream.readAll.tokens, σ.stream.readAll.nextId, {}⟩
        (looked σ.stream.readAll.tokens u) =
          (some d, replayed u.cursor e { looked σ.stream.readAll.tokens u with read }) := by
  have hread := h.follows (TokenStream.follows_readAll h.numbered)
  have hstart := h.bounded σ.stream.tokens.size
  have hfoot := footprint_of_reaches hstart hreaches
  obtain ⟨hmem, hrule, -⟩ := Memo.mem_bucket_of_get? hget
  have hdescribes := (trusted h).describes (hread.memo key e hmem) hkey hholds
  rcases hdescribes.definition hrule hfoot.bounded.cursor with ⟨hleads, d, hfinds⟩ | ⟨-, hnone, -⟩
  · obtain ⟨v, hv, rfl⟩ := Entry.id_of_idAt hkey
    have hkept := hfoot.ahead u.cursor v.id {} (Nat.le_refl _) hkey hleads
    obtain ⟨read, heval⟩ := eval_remembered_hit
      (c := ⟨σ.stream.readAll.tokens, σ.stream.readAll.nextId, {}⟩)
      (s := looked σ.stream.readAll.tokens u) anyDefinition hv (hkept.trans hget) hholds
    rw [hfinds.unwrap] at heval
    obtain ⟨t, ht, -⟩ := hleads
    exact ⟨d, t, read, hfinds, ht, heval⟩
  · exact absurd hnone hmatch

/-- An entry about a definition has been filed, or found to hold, when its token was at index `i`.
As long as it is on file, it answers the rule for definitions wherever a later parse runs the rule
in front of that token with the tokens that were looked at unchanged. Nothing is run then, and the
definition of the entry is the next one of the program. -/
theorem definition_answered (source : Text) (before after : List SessionOp) (key : TokenId)
    (e : Entry) (i : Nat) (b : Series (Definition Info)) (u : ParseState) :
    let s := (ofSource source).run before
    let filed := s.apply .parse
    let now := filed.run after
    let context : ParseContext := ⟨now.stream.readAll.tokens, now.stream.readAll.nextId, {}⟩
    let start : ParseState := { read := now.stream.tokens.size, memo := now.memo }
    e ∈ filed.memo.bucket key →
      (e ∈ s.memo.bucket key → e.holdsAt (idAt filed.stream.tokens) i = true) →
      idAt filed.stream.tokens i = some key →
      now.memo.get? key .definition {} = some e → e.outcome ≠ .noMatch →
      Reaches definitionTurn context {} (definitionsStart context start) b u →
      idAt context.tokens u.cursor = some key →
      (∀ k < e.lookahead,
        idAt context.tokens (u.cursor + k) = idAt filed.stream.tokens (i + k)) →
        ∃ d read, e.outcome = .definition d ∧
          let answered := replayed u.cursor e { looked context.tokens u with read }
          definition.eval context (looked context.tokens u) = (some d, answered) ∧
          answered.counts = { u.counts with hits := u.counts.hits + 1 } ∧
          answered.memo = u.memo ∧
          (definitionTurn b).eval context u =
            (.again { b with items := b.items.push d }, answered) ∧
          (parse now.stream now.memo).1.program.definitions[b.items.size]? = some d := by
  intro s filed now context start he hnew hfiled hget hmatch hreaches hkey hslots
  have hs : s.Valid := (valid_ofSource source).run before
  have hfiledvalid : filed.Valid := hs.apply .parse
  have hnow : now.Valid := hfiledvalid.run after
  obtain ⟨A, n, a, hfrom, hsame⟩ := soundFrom_parse hs he hfiled hnew
  have hfrom' := (hfrom.follows (follows_run hfiledvalid.numbered after)).follows
    (TokenStream.follows_readAll hnow.numbered)
  -- An entry holds where it finds the numbers that it has seen, and those are the ones at `i`.
  have hholds : e.holdsAt (idAt context.tokens) u.cursor = true :=
    (Entry.holdsAt_iff hfrom' hkey).mpr fun k hk => (hslots k hk).trans (hsame k hk)
  obtain ⟨d, t, read, hfinds, ht, heval⟩ := hnow.exists_answer hreaches hkey hget hmatch hholds
  have hpos := hfinds.consumed
  have hturn : (definitionTurn b).eval context u = (.again { b with items := b.items.push d },
      replayed u.cursor e { looked context.tokens u with read }) := by
    rw [eval_definitionTurn_some ht, heval]
    dsimp only
    rw [if_pos]
    change u.cursor + e.consumed ≠ u.cursor
    omega
  refine ⟨d, read, hfinds.outcome, heval, rfl, rfl, hturn, ?_⟩
  -- What a turn has added stays: later turns only append.
  have hends : Finishes definitionTurn context {} (definitionsStart context start) _ _ :=
    finishes_definitionsRun (hnow.bounded now.stream.tokens.size)
  obtain ⟨rest, hrest⟩ := items_definitionTurns (hends.of_reaches (hreaches.again hturn))
  have hdefinitions : (parse now.stream now.memo).1.program.definitions =
      (b.items.push d).toList ++ rest := (eval_program context start).1.trans hrest.symm
  rw [hdefinitions, Array.toList_push, List.append_assoc, List.getElem?_append_right (by simp)]
  simp

theorem memo_run_mutate (s : Session) (first count : Nat) (text : Text) :
    (s.run [.mutate first count text]).memo = s.memo := rfl

theorem definition_answered_broken_off :
    let filed := ((ofSource ['l', 'e', 't']).run []).apply .parse
    let now := filed.run [.mutate 0 0 [' ']]
    ∃ e d, filed.memo.get? 0 .definition {} = some e ∧ e.outcome = .definition d ∧
      (parse now.stream now.memo).1.program.definitions[0]? = some d := by
  dsimp only
  have hlookahead : ((((ofSource ['l', 'e', 't']).run []).apply .parse).memo.get? 0 .definition
      {}).map Entry.lookahead = some 2 := by decide +kernel
  have hmatch : ((((ofSource ['l', 'e', 't']).run []).apply .parse).memo.get? 0 .definition {}).map
      (fun e => e.outcome.info?.isSome) = some true := by decide +kernel
  obtain ⟨e, he, hlookahead⟩ := Option.map_eq_some_iff.mp hlookahead
  rw [he] at hmatch
  have hnone : e.outcome ≠ .noMatch := fun hnone => by simp [hnone, Outcome.info?] at hmatch
  have hempty : ((ofSource ['l', 'e', 't']).run []).memo.bucket 0 = [] := Memo.bucket_empty 0
  obtain ⟨d, -, houtcome, -, -, -, -, hnew⟩ := definition_answered ['l', 'e', 't'] []
    [.mutate 0 0 [' ']] 0 e 0 {} _ (Memo.mem_bucket_of_get? he).1
    (fun hbefore => absurd (hempty ▸ hbefore) List.not_mem_nil) (by decide +kernel)
    (by rw [memo_run_mutate]; exact he) hnone .start (by decide +kernel)
    (by rw [hlookahead]; decide +kernel)
  exact ⟨e, d, he, houtcome, hnew⟩

end Session

end Reparse
