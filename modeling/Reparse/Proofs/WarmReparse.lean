import Reparse.Proofs.DefinitionEntries
import Reparse.Proofs.Parser.Strides

/-!
# Parsing again

A parse leaves an entry for each definition of its program, and nothing for the tokens between them.
Parsing again right away, each definition is answered by its entry; where a token was called stray
the rule is run once more, and what is filed about that is dropped as the token is skipped.
-/

namespace Reparse

open Reparse.Parser Reparse.Grammar

variable {tokens : Array Token} {next : TokenId} {E : TokenId → Entry → Prop} {flags : Flags}
  {s s' u u' : ParseState} {m : Memo} {b b' b₂ : Series (Definition Info)}

def Leaves (tokens : Array Token) (s : ParseState) (m : Memo) : Prop :=
  ∀ key, (∀ i, s.cursor ≤ i → idAt tokens i ≠ some key) → m.bucket key = s.memo.bucket key

theorem Footprint.leaves (h : Footprint tokens s s') (hm : Leaves tokens s' m) :
    Leaves tokens s m := fun key hkey =>
  (hm key fun i hi => hkey i (Nat.le_trans h.onward hi)).trans (h.behind key hkey)

theorem Leaves.bucket (h : Leaves tokens s m) (hnodup : (tokens.toList.map Token.id).Nodup)
    {i : Nat} {t : Token} (ht : tokens[i]? = some t) (hi : i < s.cursor) :
    m.bucket t.id = s.memo.bucket t.id := by
  refine h t.id fun j hj hjkey => ?_
  have heq := idAt_inj hnodup (idAt_eq_some ht) hjkey
  omega

theorem Leaves.bucket_eq_nil (h : Leaves tokens s' m)
    (hnodup : (tokens.toList.map Token.id).Nodup) (hpasses : Passes tokens s s') {i : Nat}
    {t : Token} (hi : s.cursor ≤ i) (hi' : i < s'.cursor) (ht : tokens[i]? = some t) :
    m.bucket t.id = [] :=
  (h.bucket hnodup ht hi').trans (hpasses.bucket_eq_nil hi hi' ht)

def ParseState.strayInputs (s : ParseState) : Nat :=
  s.reports.countP fun r => r.code = .strayInput

/-- The definitions so far were answered from the memo `m`, which is unchanged. The rule was only
run where a token is stray. -/
structure Tallied (m : Memo) (b : Series (Definition Info)) (u : ParseState) : Prop where
  memo : u.memo.Same m
  counts : u.counts =
    { hits := b.items.size, misses := u.strayInputs, evicted := u.strayInputs }

def Answered (m : Memo) (c : ParseContext) (u : ParseState) : Prop :=
  ∃ t e read, c.tokens[u.cursor]? = some t ∧ m.get? t.id .definition c.flags = some e ∧
    definition.eval c (looked c.tokens u) =
      (RuleNode.unwrap? e.outcome, replayed u.cursor e { looked c.tokens u with read })

theorem Tallied.pass (h : Tallied m b u) (hpasses : Passes tokens u u')
    (hreports : u'.reports = u.reports)
    (hempty : ∀ i t, u.cursor ≤ i → i < u'.cursor → tokens[i]? = some t → m.bucket t.id = []) :
    Tallied m b u' := by
  obtain ⟨hcount, hsame⟩ := Memo.same_forget (m := u.memo)
    (stretch tokens u.cursor u'.cursor) fun t ht => by
      obtain ⟨i, hi, hi', ht⟩ := exists_of_mem_stretch ht
      rw [h.memo.bucket, hempty i t hi hi' ht]
  have hstrays : u'.strayInputs = u.strayInputs := by
    rw [ParseState.strayInputs, hreports, ParseState.strayInputs]
  refine ⟨?_, ?_⟩
  · rw [hpasses.memo]
    exact hsame.trans h.memo
  · rw [hpasses.counts, hcount, h.counts, hstrays]
    rfl

theorem Tallied.found (h : Tallied m b u) {t v : Token} {e : Entry} {d : Definition Info}
    (ht : tokens[u.cursor]? = some t) (hv : tokens[nextReal tokens u.cursor]? = some v)
    (hget : m.get? t.id .definition flags = some e)
    (hholds : e.holdsAt (idAt tokens) u.cursor = true) (hfinds : e.Finds d) :
    ∃ u', (definitionTurn b).eval ⟨tokens, next, flags⟩ u =
        (.again { b with items := b.items.push d }, u') ∧
      u'.cursor = u.cursor + e.consumed ∧ Tallied m { b with items := b.items.push d } u' ∧
      Answered m ⟨tokens, next, flags⟩ u := by
  obtain ⟨read, heval⟩ := eval_remembered_hit (c := ⟨tokens, next, flags⟩)
    (s := looked tokens u) anyDefinition ht ((h.memo.get? ..).trans hget) hholds
  have hpos := hfinds.consumed
  refine ⟨replayed u.cursor e { looked tokens u with read }, ?_, rfl, ⟨h.memo, ?_⟩,
    t, e, read, ht, hget, heval⟩
  · rw [eval_definitionTurn_some (c := ⟨tokens, next, flags⟩) hv, Grammar.definition, heval,
      hfinds.unwrap]
    dsimp only
    rw [if_pos]
    · rfl
    · change u.cursor + e.consumed ≠ u.cursor
      omega
  · have hstrays : (replayed u.cursor e { looked tokens u with read }).strayInputs =
        u.strayInputs := by
      have hnone : (e.reports.toArray.countP fun r => r.code = .strayInput) = 0 := by
        rw [List.countP_toArray, hfinds.reports]
      rw [ParseState.strayInputs, replayed, Array.countP_append, hnone]
      rfl
    rw [hstrays]
    change { u.counts with hits := u.counts.hits + 1 } = _
    rw [h.counts, Array.size_push]

theorem Tallied.skipped (h : Tallied m b u) {t v : Token} (ht : tokens[u.cursor]? = some t)
    (hv : tokens[nextReal tokens u.cursor]? = some v)
    (hnot : ¬Leads tokens startsDefinition u.cursor) {s' : ParseState}
    (hcursor : s'.cursor = u.cursor)
    (hempty : ∀ i t, u.cursor ≤ i →
      i < ((skipStray .definitionEnds .strayInput).eval ⟨tokens, next, flags⟩ s').2.cursor →
        tokens[i]? = some t → m.bucket t.id = []) :
    ∃ u', (definitionTurn b).eval ⟨tokens, next, flags⟩ u = (.again b, u') ∧
      u'.cursor =
        ((skipStray .definitionEnds .strayInput).eval ⟨tokens, next, flags⟩ s').2.cursor ∧
      Tallied m b u' := by
  have hsize : u.cursor ≤ tokens.size := Nat.le_of_lt (Array.getElem?_eq_some_iff.mp ht).1
  obtain ⟨-, hlt, -, hblind⟩ := passes_skipStray next flags .definitionEnds .strayInput
    (hcursor ▸ hsize) (hcursor ▸ hv) rfl
  rw [hcursor] at hlt
  have hfile : m.bucket t.id = [] := hempty u.cursor t (Nat.le_refl _) hlt ht
  -- Nothing is on file here any more, so the rule runs, finds no definition and files that.
  have hnone : u.memo.get? t.id .definition flags = none := by
    rw [Memo.get?, h.memo.bucket, hfile]
    rfl
  obtain ⟨e, u₁, heval, hcursor₁, hreports₁, hmemo₁, hcounts₁⟩ :=
    eval_definition_none (c := ⟨tokens, next, flags⟩) (s := looked tokens u) ht hnone hnot
  have hend := hblind u₁ (by rw [hcursor₁, hcursor, looked_cursor])
  generalize hu' : ((skipStray .definitionEnds .strayInput).eval ⟨tokens, next, flags⟩ u₁).2 = u'
    at hend
  rw [looked_cursor] at hcursor₁
  have hmemo₁ : u₁.memo = u.memo.insert t.id e := hmemo₁
  have hcounts₁ : u₁.counts = { u.counts with misses := u.counts.misses + 1 } := hcounts₁
  obtain ⟨hpasses, -, hreports, -⟩ := passes_skipStray next flags .definitionEnds .strayInput
    (hcursor₁ ▸ hsize) (hcursor₁ ▸ hv) hu'
  have hmemo := hpasses.memo
  have hcounts := hpasses.counts
  rw [← hend] at hlt hempty
  rw [hmemo₁, hcursor₁, stretch_cons hlt ht] at hmemo hcounts
  -- As the token is skipped that entry goes again, and no other: the memo is as it was.
  obtain ⟨hcount, hforget⟩ := Memo.same_forget_insert (m := u.memo) t
    (stretch tokens (u.cursor + 1) u'.cursor) (fun v hv => by
      rw [← stretch_cons hlt ht] at hv
      obtain ⟨i, hi, hi', hv⟩ := exists_of_mem_stretch hv
      rw [h.memo.bucket, hempty i v hi hi' hv]) e
  have hstrays : u'.strayInputs = u.strayInputs + 1 := by
    rw [ParseState.strayInputs, hreports, hreports₁, Array.countP_push]
    rfl
  refine ⟨u', ?_, hend, ?_, ?_⟩
  · rw [eval_definitionTurn_some (c := ⟨tokens, next, flags⟩) hv, heval, ← hu']
  · rw [hmemo]
    exact hforget.trans h.memo
  · rw [hcounts, hcount, hcounts₁, h.counts, hstrays]

theorem Tallied.turn (h : Tallied m b₂ u) (hcursor : u.cursor = s.cursor) (hs : Bounded tokens s)
    (hturn : DefinitionTurn tokens next flags s b (.again b') s') (hm : Leaves tokens s' m) :
    (Answered m ⟨tokens, next, flags⟩ u ∨ ¬Leads tokens startsDefinition u.cursor) ∧
      ∃ b₂' u', (definitionTurn b₂).eval ⟨tokens, next, flags⟩ u = (.again b₂', u') ∧
        u'.cursor = s'.cursor ∧ Tallied m b₂' u' := by
  cases hturn with
  | found ht hv hget hholds hfinds hend =>
    have hpos := hfinds.consumed
    have hkept := hm.bucket hs.nodup ht (by omega)
    rw [← Memo.get?_eq_of_bucket hkept] at hget
    rw [← hcursor] at ht hv hholds hend
    obtain ⟨u', heval, hcursor', htallied, hanswered⟩ := h.found ht hv hget hholds hfinds
    exact ⟨.inl hanswered, _, u', heval, hcursor'.trans hend.symm, htallied⟩
  | skipped ht hv hnot hsame hskip =>
    have hsize := hs.cursor
    obtain ⟨hpasses, -⟩ := passes_skipStray next flags .definitionEnds .strayInput
      (hsame ▸ hsize) (hsame ▸ hv) hskip
    rw [← hcursor] at ht hv hnot hsame
    obtain ⟨u', heval, hcursor', htallied⟩ := h.skipped ht hv hnot hsame fun i t hi hi' ht => by
      rw [hskip] at hi'
      exact hm.bucket_eq_nil hs.nodup hpasses (hsame ▸ hi) hi' ht
    exact ⟨.inr hnot, _, u', heval, hcursor'.trans (congrArg ParseState.cursor hskip), htallied⟩

/-- The second run is at a place that the first one came to as well, on its way to `s'`. -/
structure Retraces (tokens : Array Token) (next : TokenId) (E : TokenId → Entry → Prop)
    (flags : Flags) (m : Memo) (s' : ParseState) (b₂ : Series (Definition Info)) (u : ParseState) :
    Prop where
  first : ∃ b s b', Finishes definitionTurn ⟨tokens, next, flags⟩ b s b' s' ∧ u.cursor = s.cursor ∧
    Bounded tokens s ∧ Mirrored tokens next E s
  leaves : Leaves tokens s' m
  tallied : Tallied m b₂ u

namespace Retraces

variable (hE : Trusted E tokens next) (hnext : ∀ t ∈ tokens.toList, t.id < next)

include hE hnext

theorem turn (h : Retraces tokens next E flags m s' b u) :
    (tokens[nextReal tokens u.cursor]? = none ∧ u.cursor = s'.cursor) ∨
      (Answered m ⟨tokens, next, flags⟩ u ∨ ¬Leads tokens startsDefinition u.cursor) ∧
        ∃ b' u', (definitionTurn b).eval ⟨tokens, next, flags⟩ u = (.again b', u') ∧
          u.cursor < tokens.size ∧ u.cursor < u'.cursor ∧
          Retraces tokens next E flags m s' b' u' := by
  obtain ⟨⟨b₁, s, b₁', hends, hcursor, hs, hmirror⟩, hm, htallied⟩ := h
  have hcases {x s''} (h : (definitionTurn b₁).eval ⟨tokens, next, flags⟩ s = (x, s'')) :
      DefinitionTurn tokens next flags s b₁ x s'' := turned_definition hmirror hE hs.nodup hnext h
  cases hends with
  | done hturn =>
    cases hcases hturn with
    | ended hnone => exact .inl ⟨hcursor ▸ hnone, hcursor⟩
  | @again _ b₁' _ _ s'' _ hturn hsize hlt hrest =>
    obtain ⟨-, hfoot, -⟩ := @agree_definitionTurn tokens next _ (Nat.zero_le _) b₁ flags s hs
      (Nat.le_refl _)
    have hmirror' := mirrored_definitionTurn hmirror hE flags b₁
    rw [hturn] at hfoot hmirror'
    have hfoot' := hrest.footprint agree_definitionTurn hfoot.bounded (Nat.zero_le _)
    obtain ⟨hanswered, b', u', heval, hcursor', htallied'⟩ :=
      htallied.turn hcursor hs (hcases hturn) (hfoot'.leaves hm)
    exact .inr ⟨hanswered, b', u', heval, hcursor ▸ hsize, by omega,
      ⟨_, _, _, hrest, hcursor', hfoot.bounded, hmirror'⟩, hm, htallied'⟩

theorem reaches (h : Retraces tokens next E flags m s' b u) {b' : Series (Definition Info)}
    (hreaches : Reaches definitionTurn ⟨tokens, next, flags⟩ b u b' u') :
    Retraces tokens next E flags m s' b' u' := by
  induction hreaches with
  | start => exact h
  | again _ hturn ih =>
    rcases ih.turn hE hnext with ⟨hnone, -⟩ | ⟨-, b'', u'', heval, -, -, hretraces⟩
    · rw [eval_definitionTurn_none (c := ⟨tokens, next, flags⟩) hnone] at hturn
      cases hturn
    · rw [heval] at hturn
      cases hturn
      exact hretraces

theorem finishes (h : Retraces tokens next E flags m s' b u) : ∃ b' u',
    Finishes definitionTurn ⟨tokens, next, flags⟩ b u b' u' ∧ u'.cursor = s'.cursor ∧
      Tallied m b' u' := by
  obtain ⟨n, hn⟩ : ∃ n, tokens.size < u.cursor + n := ⟨tokens.size + 1, by omega⟩
  induction n generalizing b u with
  | zero =>
    obtain ⟨b₁, s, b₁', -, hcursor, hs, -⟩ := h.first
    have hsize := hs.cursor
    omega
  | succ n ih =>
    rcases h.turn hE hnext with ⟨hnone, hcursor⟩ | ⟨-, b₁, u₁, heval, hsize, hlt, hretraces⟩
    · exact ⟨_, looked tokens u, .done (eval_definitionTurn_none hnone), hcursor,
        h.tallied.memo, h.tallied.counts⟩
    · obtain ⟨b', u', hends, hcursor, htallied⟩ := ih hretraces (by omega)
      exact ⟨b', u', .again heval hsize hlt hends, hcursor, htallied⟩

end Retraces

theorem reports_definitionsStart (c : ParseContext) (s : ParseState) :
    (definitionsStart c s).reports = s.reports := by
  change (consumeTrivia.eval c s).2.reports = s.reports
  rw [eval_consumeTrivia]
  exact reports_consumeMany ..

section Program

variable (hE : Trusted E tokens next) (hnext : ∀ t ∈ tokens.toList, t.id < next)

include hE

theorem retraces_definitionsStart (hs : Bounded tokens s) (hmirror : Mirrored tokens next E s)
    (hm : (program.eval ⟨tokens, next, flags⟩ s).2.memo = m) (hcursor : u.cursor = s.cursor)
    (hu : Tallied m {} u) :
    Retraces tokens next E flags m (definitionsRun ⟨tokens, next, flags⟩ s).2 {}
      (definitionsStart ⟨tokens, next, flags⟩ u) := by
  obtain ⟨hpasses, hstart⟩ := passes_definitionsStart next flags hs.cursor
  obtain ⟨hpasses', hstart'⟩ := passes_definitionsStart next flags (hcursor ▸ hs.cursor)
  have hfoot : Footprint tokens (definitionsStart ⟨tokens, next, flags⟩ s) _ :=
    footprint_definitionsRun hs
  have hleaves : Leaves tokens (definitionsRun ⟨tokens, next, flags⟩ s).2 m := fun key hkey => by
    rw [← hm, (eval_program _ _).2]
    exact (passes_consumeTrivia (c := ⟨tokens, next, flags⟩) hfoot.bounded.cursor).1.behind hkey
  rw [hcursor, ← hstart] at hstart'
  refine ⟨⟨_, _, _, finishes_definitionsRun hs, hstart', bounded_definitionsStart hs,
    mirrored_definitionsStart hmirror hE flags⟩, hleaves, ?_⟩
  refine hu.pass hpasses' (reports_definitionsStart _ u) fun i t hi hi' ht => ?_
  exact (hfoot.leaves hleaves).bucket_eq_nil hs.nodup hpasses (hcursor ▸ hi) (hstart' ▸ hi') ht

include hnext

theorem tallied_program (hs : Bounded tokens s) (hmirror : Mirrored tokens next E s)
    (hm : (program.eval ⟨tokens, next, flags⟩ s).2.memo = m) (hcursor : u.cursor = s.cursor)
    (hu : Tallied m {} u) : ∃ b, (program.eval ⟨tokens, next, flags⟩ u).1.definitions =
      b.items.toList ∧ Tallied m b (program.eval ⟨tokens, next, flags⟩ u).2 := by
  have hretraces := retraces_definitionsStart hE hs hmirror hm hcursor hu
  obtain ⟨b, u', hends, hcursor', htallied⟩ := hretraces.finishes hE hnext
  obtain ⟨b₁, s₁, b₁', hends₁, hcursor₁, hs₁, -⟩ := hretraces.first
  have hbounded := (hends₁.footprint agree_definitionTurn hs₁ (Nat.zero_le _)).bounded
  have hrun : definitionsRun ⟨tokens, next, flags⟩ u = (b, u') :=
    hends.eval_loop
  obtain ⟨hdefinitions, hfinal⟩ := eval_program ⟨tokens, next, flags⟩ u
  rw [hrun] at hdefinitions hfinal
  refine ⟨b, hdefinitions, ?_⟩
  obtain ⟨hpasses, hend⟩ := passes_consumeTrivia (c := ⟨tokens, next, flags⟩) hbounded.cursor
  obtain ⟨hpasses', hend'⟩ :=
    passes_consumeTrivia (c := ⟨tokens, next, flags⟩) (hcursor' ▸ hbounded.cursor)
  rw [hcursor', ← hend] at hend'
  have hlast := htallied.pass hpasses'
    ((congrArg ParseState.reports (congrArg Prod.snd (eval_consumeTrivia _ u'))).trans
      (reports_consumeMany ..)) fun i t hi hi' ht => by
      rw [← hm, (eval_program _ _).2]
      exact hpasses.bucket_eq_nil (hcursor' ▸ hi) (hend' ▸ hi') ht
  rw [hfinal]
  exact ⟨hlast.memo, hlast.counts⟩

end Program

namespace Session

variable {σ : Session}

theorem Valid.tallied_again (h : σ.Valid) :
    let context : ParseContext := ⟨σ.stream.readAll.tokens, σ.stream.readAll.nextId, {}⟩
    let start : ParseState :=
      { read := σ.stream.readAll.tokens.size, memo := (parseRun σ.stream σ.memo).2.memo }
    (∃ b, (program.eval context start).1.definitions = b.items.toList ∧
      Tallied (parseRun σ.stream σ.memo).2.memo b (program.eval context start).2) ∧
      ∀ b u, Reaches definitionTurn context {} (definitionsStart context start) b u →
        (context.tokens[nextReal context.tokens u.cursor]?).isSome = true →
          Answered (parseRun σ.stream σ.memo).2.memo context u ∨
            ¬Leads context.tokens startsDefinition u.cursor := by
  intro context start
  have hnext := (TokenStream.follows_readAll h.numbered).numbered.lt_next
  obtain ⟨read, hrun, hmirror⟩ := h.mirrored
  have hmemo := congrArg (fun r => r.2.memo) hrun.symm
  have hstart : Tallied (parseRun σ.stream σ.memo).2.memo {} start := ⟨.refl _, rfl⟩
  refine ⟨tallied_program (trusted h) hnext (h.bounded read) hmirror hmemo rfl hstart,
    fun b u hreaches htoken => ?_⟩
  have hretraces := retraces_definitionsStart (u := start) (trusted h) (h.bounded read) hmirror
    hmemo rfl hstart
  have hhere := hretraces.reaches (trusted h) hnext hreaches
  rcases hhere.turn (trusted h) hnext with ⟨hnone, -⟩ | ⟨hanswered, -⟩
  · rw [hnone] at htoken
    cases htoken
  · exact hanswered

theorem stream_parse (stream : TokenStream) (memo : Memo) :
    (parse stream memo).2.1 = stream.readAll := rfl

theorem memo_parse (stream : TokenStream) (memo : Memo) :
    (parse stream memo).2.2 = (parseRun stream memo).2.memo := rfl

theorem counts_parse (stream : TokenStream) (memo : Memo) :
    (parse stream memo).1.counts = { (parseRun stream memo).2.counts with
      entries := (parseRun stream memo).2.memo.size } := rfl

/-- Parsing again right away gives the same program and the same reports. Each definition is
answered as a whole by what the first parse has left on file for it; only where a token is stray the
rule is run, and what is filed there is dropped again. -/
theorem parse_parse (source : Text) (ops : List SessionOp) :
    let s := (ofSource source).run ops
    let first := parse s.stream s.memo
    let second := parse first.2.1 first.2.2
    let strays := first.1.reports.countP fun r => r.code = .strayInput
    let context : ParseContext := ⟨first.2.1.tokens, first.2.1.nextId, {}⟩
    let start : ParseState := { read := first.2.1.tokens.size, memo := first.2.2 }
    second.1.program = first.1.program ∧ second.1.reports = first.1.reports ∧
      second.1.counts =
        { hits := first.1.program.definitions.length
          misses := strays
          evicted := strays
          entries := first.1.counts.entries } ∧
      second.2.2.Same first.2.2 ∧
      ∀ b u, Reaches definitionTurn context {} (definitionsStart context start) b u →
        (context.tokens[nextReal context.tokens u.cursor]?).isSome = true →
          Answered first.2.2 context u ∨ ¬Leads context.tokens startsDefinition u.cursor := by
  intro s
  have hs : s.Valid := (valid_ofSource source).run ops
  have hfirst : Valid ⟨s.stream.readAll, (parseRun s.stream s.memo).2.memo⟩ := hs.apply .parse
  have hread := hs.follows (TokenStream.follows_readAll hs.numbered)
  have hread' := hfirst.follows (TokenStream.follows_readAll hfirst.numbered)
  have hwhole : s.stream.readAll.readAll = s.stream.readAll :=
    TokenStream.readAll_of_isComplete s.stream.isComplete_readAll
  -- Both parses run like a bare run over the same tokens.
  obtain ⟨hprogram, hreports⟩ := parse_eq_bare hs.numbered (trusted hs) hread.memo
  obtain ⟨hprogram', hreports'⟩ := parse_eq_bare hfirst.numbered (trusted hfirst) hread'.memo
  simp only [hwhole] at hprogram' hreports'
  obtain ⟨⟨b, hdefinitions, htallied⟩, hanswered⟩ := hs.tallied_again
  have hsecond : parseRun s.stream.readAll (parseRun s.stream s.memo).2.memo =
      program.eval ⟨s.stream.readAll.tokens, s.stream.readAll.nextId, {}⟩
        { read := s.stream.readAll.tokens.size, memo := (parseRun s.stream s.memo).2.memo } := by
    rw [parseRun, hwhole]
  rw [← hsecond] at hdefinitions htallied
  simp only [stream_parse, memo_parse, counts_parse]
  refine ⟨hprogram'.trans hprogram.symm, hreports'.trans hreports.symm, ?_, htallied.memo,
    hanswered⟩
  have hsize : b.items.size = (parse s.stream s.memo).1.program.definitions.length := by
    rw [hprogram, ← hprogram', program_parse, hdefinitions, Array.length_toList]
  have hstrays : (parseRun s.stream.readAll (parseRun s.stream s.memo).2.memo).2.strayInputs =
      (parse s.stream s.memo).1.reports.countP fun r => r.code = .strayInput := by
    rw [hreports, ← hreports', reports_parse, Array.countP_toList]
    rfl
  rw [htallied.counts, htallied.memo.size, hsize, hstrays]

end Session

end Reparse
