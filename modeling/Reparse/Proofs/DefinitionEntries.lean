import Reparse.Proofs.Assembly
import Reparse.Proofs.Grammar.Agree.Statements
import Reparse.Proofs.Locality

/-!
# Definitions on file

Wherever the rule for definitions has been run in front of a token, an entry is on file for that
token which says what was done, be it found there or filed just now. It is about a definition if a
keyword of one is next, and else it says that nothing matched.
-/

namespace Reparse

open Reparse.Parser

variable {tokens : Array Token} {next : TokenId} {E : TokenId → Entry → Prop} {s : ParseState}
  {e : Entry} {i : Nat} {flags : Flags}

/-- The entry of a definition that has been found. -/
structure Entry.Finds (e : Entry) (d : Definition Info) : Prop where
  outcome : e.outcome = .definition d
  consumed : 0 < e.consumed
  reports : (e.reports.countP fun r => r.code = .strayInput) = 0

theorem Entry.Describes.definition (h : e.Describes tokens i) (hrule : e.rule = .definition)
    (hi : i ≤ tokens.size) :
    (Leads tokens Grammar.startsDefinition i ∧ ∃ d, e.Finds d) ∨
      (¬Leads tokens Grammar.startsDefinition i ∧ e.outcome = .noMatch ∧ e.consumed = 0) := by
  have hbuilds : Builds tokens e.flags 0 (Leads tokens Grammar.startsDefinition)
    Definition.outline Grammar.anyDefinition := Grammar.builds_anyDefinition
  obtain ⟨-, hanswer⟩ := hbuilds (ParseState.bare tokens i).trail (Nat.zero_le _)
    (.bare tokens i) ⟨rfl, .empty, hi⟩ rfl
  generalize hr : Grammar.anyDefinition.eval (.bare tokens e.flags) (.bare tokens i) = r at hanswer
  have hrun : e.bareRun tokens i = ((r.1.map RuleNode.wrap).getD .noMatch, r.2) := by
    rw [Entry.bareRun, hrule, ← hr]
    rfl
  have houtcome := h.outcome
  have hconsumed := h.consumed
  have hreports := h.reports
  rw [hrun] at houtcome hconsumed hreports
  obtain ⟨d?, s'⟩ := r
  cases d? with
  | none =>
    obtain ⟨htrail, hnot⟩ := hanswer
    have hcursor : s'.cursor = i := congrArg Trail.cursor htrail
    simp only at hconsumed
    exact .inr ⟨hnot, houtcome, by omega⟩
  | some d =>
    obtain ⟨hbuilt, hleads⟩ := hanswer
    have hlt : i < s'.cursor := hbuilt.lt
    obtain ⟨f, hwalk, hinput⟩ := hbuilt.advances
    simp only at hconsumed
    refine .inl ⟨hleads, d, houtcome, by omega, ?_⟩
    have htold : e.reports = f.reports := by
      have hwalked : s'.reports.toList = [] ++ f.reports := hwalk.reports
      rw [List.nil_append] at hwalked
      rw [← hwalked, ← hreports]
    have hnone := hwalk.told.input
    rw [hinput, ← htold] at hnone
    rw [List.countP_eq_length_filter, hnone]
    rfl

theorem Entry.Finds.unwrap {d : Definition Info} (h : e.Finds d) :
    RuleNode.unwrap? e.outcome = some d := by
  rw [h.outcome]
  rfl

/-- A bare run comes to a state like this at the same cursor. -/
def Mirrored (tokens : Array Token) (next : TokenId) (E : TokenId → Entry → Prop)
    (s : ParseState) : Prop :=
  ∃ pre₁ pre₂ s₁, Twins (.same tokens 0) next E pre₁ pre₂ s₁ s

theorem Mirrored.run {β : Type} [Renumber β] {p₁ p₂ : Parser β} {P : Nat → Prop}
    {Q : β → Nat → Prop} (h : Mirrored tokens next E s) (hE : Trusted E tokens next)
    (hp : Alike (.same tokens 0) P p₁ p₂ Q) (hP : P s.cursor) (flags : Flags) :
    Mirrored tokens next E (p₂.eval ⟨tokens, next, flags⟩ s).2 := by
  obtain ⟨pre₁, pre₂, s₁, ht⟩ := h
  have hcursor : s₁.cursor = s.cursor := ht.cursor
  have hmatch := hp.twin flags hE ht (Nat.zero_le _) (hcursor ▸ hP) (Window.agrees_same ..)
  exact ⟨pre₁, pre₂, _, hmatch.twins⟩

theorem Mirrored.filed (h : Mirrored tokens next E s) (hE : Trusted E tokens next) {key : TokenId}
    (hkey : idAt tokens s.cursor = some key) (hseen : s.cursor < s.read)
    {r : Option (Definition Info) × ParseState}
    (hr : Grammar.anyDefinition.eval ⟨tokens, next, flags⟩ (opened s.cursor s) = r) :
    (entryOf s.cursor ⟨tokens, next, flags⟩ s.reports.size r).Filed tokens next key s.cursor ∧
      s.cursor ≤ r.2.cursor := by
  have halike := Grammar.alike_anyDefinition (w := .same tokens s.cursor) (m := 0)
  obtain ⟨pre₁, pre₂, s₁, htwins⟩ := h
  have hbody := halike.twin flags hE (htwins.bare_opened hseen) (Nat.le_refl _) (Nat.le_refl _)
    (Window.agrees_same ..)
  have honward : s.cursor ≤ _ ∧ s.cursor ≤ _ :=
    halike.onward (.bare tokens flags) (.bare tokens s.cursor)
  have hcursor : _ = r.2.cursor := hr ▸ Nat.add_right_cancel hbody.twins.cursor
  have hreach : _ = r.2.reach := hr ▸ Nat.add_right_cancel hbody.twins.reach
  change Matches (.same tokens s.cursor) next E (.bare tokens s.cursor) s _ _
    (Grammar.anyDefinition.eval ⟨tokens, next, flags⟩ (opened s.cursor s)) at hbody
  rw [hr] at hbody
  have hle : s.cursor ≤ r.2.cursor := hcursor ▸ honward.1
  have hle' : s.cursor ≤ r.2.reach := hreach ▸ honward.2
  exact ⟨filed_entryOf (describes_entryOf rfl hbody hle hle') hkey hle' hbody.twins.right_seen
    hbody.twins.right_read hbody.twins.right_fresh hbody.twins.right_next, hle⟩

theorem Mirrored.exists_entry (h : Mirrored tokens next E s) (hE : Trusted E tokens next)
    (hnodup : (tokens.toList.map Token.id).Nodup) (hnext : ∀ t ∈ tokens.toList, t.id < next)
    {t : Token} (ht : tokens[s.cursor]? = some t) {r : Option (Definition Info) × ParseState}
    (hr : Grammar.definition.eval ⟨tokens, next, flags⟩ s = r) :
    ∃ e, r.2.memo.get? t.id .definition flags = some e ∧ e.rule = .definition ∧
      e.Describes tokens s.cursor ∧ e.holdsAt (idAt tokens) s.cursor = true ∧
      r.1 = RuleNode.unwrap? e.outcome ∧ r.2.cursor = s.cursor + e.consumed := by
  have hkey : idAt tokens s.cursor = some t.id := idAt_eq_some ht
  -- Either an entry answered, and then it is about this place, or the rule ran and filed one.
  obtain ⟨read, hle, hsize, hseen, ⟨e, hget, hholds, -, heval⟩ | ⟨-, heval⟩⟩ :=
    eval_remembered_some (c := ⟨tokens, next, flags⟩) Grammar.anyDefinition ht
  · obtain ⟨pre₁, pre₂, s₁, htwins⟩ := h
    obtain ⟨hmem, hrule, -⟩ := Memo.mem_bucket_of_get? hget
    rw [Grammar.definition, heval] at hr
    subst hr
    exact ⟨e, hget, hrule, hE.describes (htwins.right_memo _ _ hmem) hkey hholds, hholds, rfl, rfl⟩
  · have hread : Mirrored tokens next E { s with read } := by
      obtain ⟨pre₁, pre₂, s₁, htwins⟩ := h
      exact ⟨pre₁, pre₂, s₁, htwins.read hle
        (Nat.le_trans hsize (Nat.max_le.mpr ⟨htwins.right_read, Nat.le_refl _⟩))⟩
    rw [Grammar.definition, heval, eval_runAndFile] at hr
    generalize hbody : Grammar.anyDefinition.eval ⟨tokens, next, flags⟩
      (opened s.cursor { s with read }) = r' at hr
    obtain ⟨hfiled, honward⟩ := hread.filed hE hkey hseen hbody
    subst hr
    refine ⟨_, Memo.get?_insert, rfl, hfiled.describes, ?_, ?_, (Nat.add_sub_cancel' honward).symm⟩
    · have hsound : SoundFrom tokens next t.id _ tokens next s.cursor :=
        ⟨hfiled, Nat.le_refl _, hnodup, hnext, List.filter_sublist⟩
      exact (Entry.holdsAt_iff hsound hkey).mpr fun _ _ => rfl
    · cases hvalue : r'.1 with
      | none => simp only [entryOf, hvalue]; rfl
      | some d => simp only [entryOf, hvalue]; rfl

namespace Grammar

variable {c : ParseContext}

theorem eval_anyDefinition_none (h : ¬Leads c.tokens startsDefinition s.cursor) :
    anyDefinition.eval c s = (none, looked c.tokens s) := by
  rw [anyDefinition, nextKind, bind_assoc, eval_bind, eval_nextToken]
  cases ht : c.tokens[nextReal c.tokens s.cursor]? with
  | none => rfl
  | some t =>
    have hkind : startsDefinition t.kind = false := by
      rw [← Bool.not_eq_true]
      exact fun hsort => h ⟨t, ht, hsort⟩
    simp [hkind]

theorem eval_definition_none {t : Token} (ht : c.tokens[s.cursor]? = some t)
    (hget : s.memo.get? t.id .definition c.flags = none)
    (h : ¬Leads c.tokens startsDefinition s.cursor) : ∃ e s', definition.eval c s = (none, s') ∧
      s'.cursor = s.cursor ∧ s'.reports = s.reports ∧ s'.memo = s.memo.insert t.id e ∧
      s'.counts = { s.counts with misses := s.counts.misses + 1 } := by
  obtain ⟨read, -, -, -, ⟨e, he, -⟩ | ⟨-, heval⟩⟩ := eval_remembered_some anyDefinition ht
  · cases hget.symm.trans he
  · have hbody := eval_anyDefinition_none (c := c) (s := opened s.cursor { s with read }) h
    rw [definition, heval, eval_runAndFile, hbody]
    exact ⟨_, _, rfl, rfl, rfl, rfl, rfl⟩

abbrev definitionSeries : SeriesShape :=
  { SeriesShape.unending with resync := some .definitionEnds, stray := .strayInput }

abbrev definitionTurn (b : Series (Definition Info)) : Parser (Turn (Series (Definition Info))) :=
  seriesTurn definitionSeries definition b

variable {b : Series (Definition Info)}

theorem eval_definitionTurn_none (h : c.tokens[nextReal c.tokens s.cursor]? = none) :
    (definitionTurn b).eval c s = (.done { b with stop := .endOfInput }, looked c.tokens s) :=
  eval_seriesTurn_none (congrArg (Option.map Token.kind) h)

theorem eval_definitionTurn_some {t : Token} (h : c.tokens[nextReal c.tokens s.cursor]? = some t) :
    (definitionTurn b).eval c s =
      match definition.eval c (looked c.tokens s) with
      | (some d, s') =>
        (if s'.cursor ≠ s.cursor then .again { b with items := b.items.push d }
          else .done { items := b.items.push d, stop := .aborted }, s')
      | (none, s') => (.again b, ((skipStray .definitionEnds .strayInput).eval c s').2) := by
  have hkind : (nextKind.eval c s).1 = some t.kind := congrArg (Option.map Token.kind) h
  rw [definitionTurn, eval_seriesTurn_item hkind (Option.some_ne_none _).symm]
  generalize definition.eval c (looked c.tokens s) = r
  obtain ⟨_ | d, s'⟩ := r
  · rfl
  · by_cases hmoved : s'.cursor = s.cursor <;> simp [afterItem, SeriesShape.unending, hmoved]

theorem agree_definitionTurn : AgreeTurns tokens next 0 definitionTurn definitionTurn :=
  agree_seriesTurn definitionSeries agree_definition

theorem items_definitionTurn {x : Turn (Series (Definition Info))} {s' : ParseState}
    (h : (definitionTurn b).eval c s = (x, s')) :
    b.items.toList <+: (turnState x).items.toList := by
  cases hnext : c.tokens[nextReal c.tokens s.cursor]? with
  | none =>
    rw [eval_definitionTurn_none hnext] at h
    cases h
    exact List.prefix_refl _
  | some t =>
    rw [eval_definitionTurn_some hnext] at h
    generalize definition.eval c (looked c.tokens s) = r at h
    rcases r with ⟨_ | d, s₁⟩
    · cases h
      exact List.prefix_refl _
    · have hpush : b.items.toList <+: (b.items.push d).toList := by
        rw [Array.toList_push]
        exact List.prefix_append ..
      dsimp only at h
      split at h
      · cases h
        exact hpush
      · cases h
        exact hpush

theorem items_definitionTurns {b' : Series (Definition Info)} {s' : ParseState}
    (h : Finishes definitionTurn c b s b' s') : b.items.toList <+: b'.items.toList := by
  induction h with
  | done hturn => exact items_definitionTurn hturn
  | again hturn _ _ _ ih => exact (items_definitionTurn hturn).trans ih

inductive DefinitionTurn (tokens : Array Token) (next : TokenId) (flags : Flags) (s : ParseState)
    (b : Series (Definition Info)) : Turn (Series (Definition Info)) → ParseState → Prop
  | ended : tokens[nextReal tokens s.cursor]? = none →
      DefinitionTurn tokens next flags s b (.done { b with stop := .endOfInput }) (looked tokens s)
  | found {t u : Token} {e : Entry} {d : Definition Info} {s' : ParseState} :
      tokens[s.cursor]? = some t → tokens[nextReal tokens s.cursor]? = some u →
      s'.memo.get? t.id .definition flags = some e → e.holdsAt (idAt tokens) s.cursor = true →
      e.Finds d → s'.cursor = s.cursor + e.consumed →
      DefinitionTurn tokens next flags s b (.again { b with items := b.items.push d }) s'
  | skipped {t u : Token} {s' s'' : ParseState} :
      tokens[s.cursor]? = some t → tokens[nextReal tokens s.cursor]? = some u →
      ¬Leads tokens startsDefinition s.cursor → s'.cursor = s.cursor →
      ((skipStray .definitionEnds .strayInput).eval ⟨tokens, next, flags⟩ s').2 = s'' →
      DefinitionTurn tokens next flags s b (.again b) s''

theorem turned_definition (h : Mirrored tokens next E s) (hE : Trusted E tokens next)
    (hnodup : (tokens.toList.map Token.id).Nodup) (hnext : ∀ t ∈ tokens.toList, t.id < next)
    {x : Turn (Series (Definition Info))} {s' : ParseState}
    (hturn : (definitionTurn b).eval ⟨tokens, next, flags⟩ s = (x, s')) :
    DefinitionTurn tokens next flags s b x s' := by
  cases hu : tokens[nextReal tokens s.cursor]? with
  | none =>
    rw [eval_definitionTurn_none (c := ⟨tokens, next, flags⟩) hu] at hturn
    cases hturn
    exact .ended hu
  | some u =>
    have hle := le_nextReal tokens s.cursor
    have hlt := (Array.getElem?_eq_some_iff.mp hu).1
    have ht : tokens[s.cursor]? = some tokens[s.cursor] := Array.getElem?_eq_getElem (by omega)
    have hlooked : Mirrored tokens next E (looked tokens s) :=
      h.run hE (alike_nextToken (P := fun _ => True)) trivial flags
    rw [eval_definitionTurn_some (c := ⟨tokens, next, flags⟩) hu] at hturn
    generalize hr : definition.eval ⟨tokens, next, flags⟩ (looked tokens s) = r at hturn
    obtain ⟨e, hget, hrule, hdescribes, hholds, hvalue, hcursor⟩ :=
      hlooked.exists_entry hE hnodup hnext ht hr
    obtain ⟨d?, s₁⟩ := r
    dsimp only [looked_cursor] at hget hdescribes hholds hvalue hcursor hturn
    rcases hdescribes.definition hrule (by omega) with
      ⟨-, d, hfinds⟩ | ⟨hnot, houtcome, hconsumed⟩
    · rw [hfinds.unwrap] at hvalue
      subst hvalue
      have hpos := hfinds.consumed
      dsimp only at hturn
      rw [if_pos (by omega)] at hturn
      cases hturn
      exact .found ht hu hget hholds hfinds hcursor
    · rw [houtcome] at hvalue
      change d? = none at hvalue
      subst hvalue
      cases hturn
      exact .skipped ht hu hnot (by omega) rfl

theorem mirrored_definitionTurn (h : Mirrored tokens next E s) (hE : Trusted E tokens next)
    (flags : Flags) (b : Series (Definition Info)) :
    Mirrored tokens next E ((definitionTurn b).eval ⟨tokens, next, flags⟩ s).2 := by
  have halike := alike_seriesTurn (w := .same tokens 0) definitionSeries b
    (alike_definition (m := 0))
  have hrun := h.run hE halike (Nat.zero_le _) flags
  rwa [show renumber (Window.same tokens 0).number b = b from Renumber.renumber_id b] at hrun

def definitionsStart (c : ParseContext) (s : ParseState) : ParseState :=
  looked c.tokens { (consumeTrivia.eval c s).2 with comments := [] }

theorem passes_definitionsStart (next : TokenId) (flags : Flags) {s : ParseState}
    (hs : s.cursor ≤ tokens.size) :
    Passes tokens s (definitionsStart ⟨tokens, next, flags⟩ s) ∧
      (definitionsStart ⟨tokens, next, flags⟩ s).cursor = nextReal tokens s.cursor := by
  obtain ⟨hpasses, hcursor⟩ := passes_consumeTrivia (c := ⟨tokens, next, flags⟩) hs
  exact ⟨hpasses.congr ⟨rfl, rfl, rfl⟩ ⟨rfl, rfl, rfl⟩, hcursor⟩

theorem mirrored_definitionsStart {s : ParseState} (h : Mirrored tokens next E s)
    (hE : Trusted E tokens next) (flags : Flags) :
    Mirrored tokens next E (definitionsStart ⟨tokens, next, flags⟩ s) := by
  have hpassed := h.run hE (alike_consumeTrivia (m := 0)) (Nat.zero_le _) flags
  have hclaimed := hpassed.run hE (alike_claimComments (P := fun _ => True)) trivial flags
  exact hclaimed.run hE (alike_nextToken (P := fun _ => True)) trivial flags

def definitionsRun (c : ParseContext) (s : ParseState) : Series (Definition Info) × ParseState :=
  (loop definitionTurn {}).eval c (definitionsStart c s)

section

variable (hs : Bounded tokens s)

include hs

theorem bounded_definitionsStart : Bounded tokens (definitionsStart ⟨tokens, next, flags⟩ s) :=
  (passes_definitionsStart next flags hs.cursor).1.bounded hs

theorem finishes_definitionsRun :
    Finishes definitionTurn ⟨tokens, next, flags⟩ {} (definitionsStart ⟨tokens, next, flags⟩ s)
      (definitionsRun ⟨tokens, next, flags⟩ s).1 (definitionsRun ⟨tokens, next, flags⟩ s).2 :=
  finishes_loop agree_definitionTurn flags {} (bounded_definitionsStart hs) (Nat.zero_le _)

theorem footprint_definitionsRun : Footprint tokens (definitionsStart ⟨tokens, next, flags⟩ s)
    (definitionsRun ⟨tokens, next, flags⟩ s).2 :=
  (finishes_definitionsRun hs).footprint agree_definitionTurn (bounded_definitionsStart hs)
    (Nat.zero_le _)

theorem footprint_of_reaches {u : ParseState} (h : Reaches definitionTurn ⟨tokens, next, flags⟩ {}
    (definitionsStart ⟨tokens, next, flags⟩ s) b u) : Footprint tokens s u :=
  ((passes_definitionsStart next flags hs.cursor).1.footprint hs).trans
    (h.footprint agree_definitionTurn (bounded_definitionsStart hs) (Nat.zero_le _))

end

theorem eval_program (c : ParseContext) (s : ParseState) :
    (program.eval c s).1.definitions = (definitionsRun c s).1.items.toList ∧
      (program.eval c s).2 =
        { (consumeTrivia.eval c (definitionsRun c s).2).2 with comments := [] } := by
  have hextent : ∀ first : Token, ∀ s' : ParseState, ((extentFrom first).eval c s').2 = s' :=
    fun first s' => by rw [extentFrom, eval_bind, eval_lastConsumed]; rfl
  unfold program
  simp only [eval_bind, eval_nextToken]
  cases c.tokens[nextReal c.tokens (claimComments.eval c (consumeTrivia.eval c s).2).2.cursor]? with
  | none => exact ⟨rfl, rfl⟩
  | some first =>
    dsimp only
    rw [eval_bind, hextent]
    exact ⟨rfl, rfl⟩

end Grammar

namespace Session

variable {σ : Session}

theorem Valid.bounded (h : σ.Valid) (read : Nat) :
    Bounded σ.stream.readAll.tokens { read, memo := σ.memo } where
  nodup := (TokenStream.follows_readAll h.numbered).numbered.nodup
  cursor := Nat.zero_le _
  memo := by
    have hread := h.follows (TokenStream.follows_readAll h.numbered)
    refine hread.memo.mono fun key e he i hkey hholds => ?_
    exact ((trusted h).describes he hkey hholds).within (Nat.le_of_lt (lt_of_idAt hkey))

theorem Valid.mirrored (h : σ.Valid) : ∃ read, parseRun σ.stream σ.memo =
      Grammar.program.eval ⟨σ.stream.readAll.tokens, σ.stream.readAll.nextId, {}⟩
        { read, memo := σ.memo } ∧
    Mirrored σ.stream.readAll.tokens σ.stream.readAll.nextId
      (Sound σ.stream.readAll.tokens σ.stream.readAll.nextId) { read, memo := σ.memo } := by
  have hread := h.follows (TokenStream.follows_readAll h.numbered)
  obtain ⟨read, hstart, hsize, hseen, hrun⟩ := parseRun_read σ.stream σ.memo
  refine ⟨read, hrun, _, _, _, Twins.start (A := σ.stream.readAll.tokens) id (Nat.zero_le _) hsize
    (j := 0) (by omega) ((TokenStream.ascending_readMore _ h.numbered).mono hstart)
    (.inr fun t ht => ?_) hread.memo⟩
  exact hread.numbered.lt_next t (Array.mem_toList_iff.mpr ht)

end Session

end Reparse
