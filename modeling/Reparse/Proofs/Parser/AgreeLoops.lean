import Reparse.Proofs.Parser.Agreement

/-!
# Agreement of loops and kept rules

A loop ends if it comes to a turn that is done, with every turn before having consumed a token. From
a bounded state every loop ends whose turns either consume something or are done, so the fuel never
shows. A kept rule leaves a footprint whether it is answered from the memo or run; rules nested in
themselves agree whatever the depths, as long as these exceed the number of tokens left.
-/

namespace Reparse

open Reparse.Parser

variable {tokens : Array Token} {next : TokenId} {β γ σ : Type} {n : Nat}

inductive Finishes (turn : σ → Parser (Turn σ)) (c : ParseContext) :
    (b : σ) → (s : ParseState) → (b' : σ) → (s' : ParseState) → Prop
  | done {b b' : σ} {s s' : ParseState} : (turn b).eval c s = (.done b', s') →
      Finishes turn c b s b' s'
  | again {b b' b'' : σ} {s s' s'' : ParseState} : (turn b).eval c s = (.again b', s') →
      s.cursor < c.tokens.size → s.cursor < s'.cursor → Finishes turn c b' s' b'' s'' →
      Finishes turn c b s b'' s''

/-- Where a loop comes to from `b` in state `s`: the turns so far have asked for another one. -/
inductive Reaches (turn : σ → Parser (Turn σ)) (c : ParseContext) (b : σ) (s : ParseState) :
    σ → ParseState → Prop
  | start : Reaches turn c b s b s
  | again {b' b'' : σ} {s' s'' : ParseState} : Reaches turn c b s b' s' →
      (turn b').eval c s' = (.again b'', s'') → Reaches turn c b s b'' s''

def turnAhead (n : Nat) : Turn σ → Nat → Prop
  | .again _, c => n + 1 ≤ c
  | .done _, c => n ≤ c

def AgreeTurns (tokens : Array Token) (next : TokenId) (n : Nat)
    (turn turn' : σ → Parser (Turn σ)) : Prop :=
  ∀ m ≥ n, ∀ b, Agree tokens next (m ≤ ·) (turn b) (turn' b) (turnAhead m)

variable {turn turn' : σ → Parser (Turn σ)} {flags : Flags} {s : ParseState}

theorem agree_iterate (h : AgreeTurns tokens next n turn turn') (flags : Flags) (k : Nat) (b : σ)
    (hs : Bounded tokens s) (hn : n ≤ s.cursor) (hk : tokens.size < s.cursor + k) :
    (iterate turn' k b).eval ⟨tokens, next, flags⟩ s =
        (iterate turn k b).eval ⟨tokens, next, flags⟩ s ∧
      Footprint tokens s ((iterate turn k b).eval ⟨tokens, next, flags⟩ s).2 ∧
      Finishes turn ⟨tokens, next, flags⟩ b s ((iterate turn k b).eval ⟨tokens, next, flags⟩ s).1
        ((iterate turn k b).eval ⟨tokens, next, flags⟩ s).2 := by
  induction k generalizing b s with
  | zero => exact absurd hk (Nat.not_lt.mpr hs.cursor)
  | succ k ih =>
    obtain ⟨heq, hfoot, hahead⟩ := h s.cursor hn b flags s hs (Nat.le_refl _)
    rw [iterate_succ, iterate_succ, eval_bind, eval_bind, heq]
    generalize hr : (turn b).eval ⟨tokens, next, flags⟩ s = r at hfoot hahead
    obtain ⟨t, s'⟩ := r
    dsimp only at hfoot hahead
    cases t with
    | again b' =>
      have hlt : s.cursor < s'.cursor := hahead
      obtain ⟨heq', hfoot', hends⟩ := ih b' hfoot.bounded (by omega) (by omega)
      exact ⟨heq', hfoot.trans hfoot',
        .again hr (Nat.lt_of_lt_of_le hlt hfoot.bounded.cursor) hlt hends⟩
    | done b' => exact ⟨rfl, hfoot, .done hr⟩

theorem agree_loop (h : AgreeTurns tokens next n turn turn') (b : σ) :
    AgreeFrom tokens next n (loop turn b) (loop turn' b) := by
  intro flags s hs hn
  obtain ⟨heq, hfoot, -⟩ := agree_iterate h flags (tokens.size - s.cursor + 1) b hs hn
    (by omega)
  exact ⟨heq, hfoot, Nat.le_trans hn hfoot.onward⟩

theorem finishes_loop (h : AgreeTurns tokens next n turn turn') (flags : Flags) (b : σ)
    (hs : Bounded tokens s) (hn : n ≤ s.cursor) :
    Finishes turn ⟨tokens, next, flags⟩ b s ((loop turn b).eval ⟨tokens, next, flags⟩ s).1
      ((loop turn b).eval ⟨tokens, next, flags⟩ s).2 :=
  (agree_iterate h flags (tokens.size - s.cursor + 1) b hs hn (by omega)).2.2

theorem Finishes.footprint (h : AgreeTurns tokens next n turn turn') {b b' : σ} {s s' : ParseState}
    (hs : Bounded tokens s) (hn : n ≤ s.cursor)
    (hends : Finishes turn ⟨tokens, next, flags⟩ b s b' s') : Footprint tokens s s' := by
  induction hends with
  | done hturn =>
    obtain ⟨-, hfoot, -⟩ := h _ hn _ flags _ hs (Nat.le_refl _)
    rw [hturn] at hfoot
    exact hfoot
  | again hturn _ _ hrest ih =>
    obtain ⟨-, hfoot, -⟩ := h _ hn _ flags _ hs (Nat.le_refl _)
    rw [hturn] at hfoot
    exact hfoot.trans (ih hfoot.bounded (Nat.le_trans hn hfoot.onward))

theorem Finishes.eval_iterate {c : ParseContext} {b b' : σ} {s s' : ParseState}
    (h : Finishes turn c b s b' s') {k : Nat} (hk : c.tokens.size - s.cursor < k) :
    (iterate turn k b).eval c s = (b', s') := by
  induction h generalizing k with
  | done hturn =>
    cases k with
    | zero => exact absurd hk (Nat.not_lt_zero _)
    | succ k =>
      rw [iterate_succ, eval_bind, hturn]
      rfl
  | again hturn hsize hlt hrest ih =>
    cases k with
    | zero => exact absurd hk (Nat.not_lt_zero _)
    | succ k =>
      rw [iterate_succ, eval_bind, hturn]
      exact ih (by omega)

theorem Finishes.eval_loop {c : ParseContext} {b b' : σ} {s s' : ParseState}
    (h : Finishes turn c b s b' s') : (loop turn b).eval c s = (b', s') := by
  rw [Parser.eval_loop]
  exact h.eval_iterate (Nat.lt_succ_self _)

theorem Reaches.footprint (h : AgreeTurns tokens next n turn turn') {b b' : σ} {s s' : ParseState}
    (hs : Bounded tokens s) (hn : n ≤ s.cursor)
    (hreaches : Reaches turn ⟨tokens, next, flags⟩ b s b' s') : Footprint tokens s s' := by
  induction hreaches with
  | start => exact .of_still hs rfl rfl
  | again _ hturn ih =>
    obtain ⟨-, hfoot, -⟩ := h _ (Nat.le_trans hn ih.onward) _ flags _ ih.bounded (Nat.le_refl _)
    rw [hturn] at hfoot
    exact ih.trans hfoot

theorem Finishes.of_reaches {c : ParseContext} {b b' b'' : σ} {s s' s'' : ParseState}
    (h : Finishes turn c b s b'' s'') (hreaches : Reaches turn c b s b' s') :
    Finishes turn c b' s' b'' s'' := by
  induction hreaches with
  | start => exact h
  | again _ hturn ih =>
    cases ih with
    | done hdone => cases hdone.symm.trans hturn
    | again hagain _ _ hrest =>
      cases hagain.symm.trans hturn
      exact hrest

section Series

variable {P : Nat → Prop}

def skipTurn (set : KindSet) (_ : Bool) : Parser (Turn Bool) := do
  let some k ← nextKind | return .done false
  if set.contains k then return .done true
  let _ ← consume
  return .again false

theorem skipTo_eq (set : KindSet) : skipTo set = loop (skipTurn set) false := rfl

theorem agree_skipTurn (set : KindSet) :
    AgreeTurns tokens next n (skipTurn set) (skipTurn set) := by
  intro m _ b
  refine agree_next_kind (.pure fun _ hc => hc) fun k => ?_
  dsimp only
  split
  · exact .pure fun _ hc => hc.1
  · exact agree_taken fun _ => .pure fun _ hc => hc

theorem agree_skipTo (set : KindSet) : AgreeFrom tokens next n (skipTo set) (skipTo set) := by
  rw [skipTo_eq]
  exact agree_loop (agree_skipTurn set) false

theorem agree_skipStray (set : KindSet) (code : Code) :
    Agree tokens next P (skipStray set code) (skipStray set code) fun _ c =>
      ∃ b, P b ∧ b ≤ c ∧ (tokens[nextReal tokens b]? ≠ none → b < c) := by
  refine agree_consume.bind fun t? => ?_
  cases t? with
  | none =>
    refine .pure ?_
    rintro c ⟨b, hb, hnone, hc⟩
    exact ⟨b, hb, hc, fun hsome => absurd hnone hsome⟩
  | some t =>
    refine .of_start fun m hm => ?_
    obtain ⟨b, hb, -, hlt⟩ := hm
    refine Agree.weaken (P := (m ≤ ·)) (Q := fun _ c => m ≤ c) ?_
      (fun _ hc => Nat.le_of_eq hc.symm)
      fun _ c hc => ⟨b, hb, Nat.le_trans (Nat.le_of_lt hlt) hc, fun _ => Nat.lt_of_lt_of_le hlt hc⟩
    refine (Still.report _ _ _).agree.bind fun _ => (agree_skipTo set).bind fun found => ?_
    cases found with
    | true => exact (agree_accept .semicolon).step.bind fun _ => .pure fun _ hc => hc
    | false => exact .pure fun _ hc => hc

theorem agree_seriesEnd? (shape : SeriesShape) :
    Agree tokens next P (seriesEnd? shape) (seriesEnd? shape) fun stop? c =>
      P c ∧ (stop? = none → tokens[nextReal tokens c]? ≠ none) := by
  refine agree_nextKind.bind fun k? => ?_
  cases k? with
  | none => exact .pure fun c hc => ⟨hc.1, fun h => absurd h (Option.some_ne_none _)⟩
  | some k =>
    refine .pure fun c hc => ⟨hc.1, fun _ hnone => ?_⟩
    rw [hnone] at hc
    exact absurd hc.2.symm (Option.some_ne_none k)

theorem agree_afterItem (shape : SeriesShape) (moved : Bool) (s : Series β) :
    Agree tokens next (fun c => n ≤ c ∧ (moved = true → n + 1 ≤ c)) (afterItem shape moved s)
      (afterItem shape moved s) (turnAhead n) := by
  unfold afterItem
  split
  · cases moved with
    | true => exact .pure fun c hc => hc.2 rfl
    | false => exact .pure fun c hc => hc.1
  · refine ((agree_accept _).weaken (fun c hc => hc.1) fun _ _ hc => hc).bind fun t? => ?_
    cases t? with
    | some t => exact (Still.checkTrailing shape t).agree.bind fun _ => .pure fun _ hc => hc
    | none => exact (agree_seriesEnd? shape).bind fun stop? => .pure fun c hc => hc.1

variable {item item' : Parser (Option β)}

theorem agree_seriesTurn (shape : SeriesShape) (hitem : AgreeFrom tokens next n item item') :
    AgreeTurns tokens next n (seriesTurn shape item) (seriesTurn shape item') := by
  intro m hm s
  refine (agree_seriesEnd? shape).bind fun stop? => ?_
  cases stop? with
  | some stop => exact .pure fun c hc => hc.1
  | none =>
    refine (((hitem.mono hm).weaken (fun c hc => hc.1) fun _ _ hc => hc).watched).bind fun r => ?_
    rcases r with ⟨_ | value, moved⟩
    · dsimp only
      cases shape.resumeSet? with
      | none => exact .pure fun c ⟨b, hb, hc, _⟩ => Nat.le_trans hb.1 hc
      | some set =>
        refine (agree_skipStray set shape.stray).bind fun _ => .pure ?_
        rintro c ⟨d, ⟨b, ⟨hb, hnext⟩, hbd, -⟩, hdc, hskip⟩
        obtain ⟨t, ht⟩ := Option.ne_none_iff_exists'.mp (hnext rfl)
        -- Either the item has moved, or the token that was ahead of it is skipped.
        cases hd : tokens[nextReal tokens d]? with
        | none => exact Nat.le_trans (Nat.lt_of_le_of_lt hb (lt_of_nextReal hbd ht hd)) hdc
        | some u => exact Nat.lt_of_le_of_lt (Nat.le_trans hb hbd) (hskip (by simp [hd]))
    · refine (agree_afterItem shape moved _).weaken ?_ fun _ _ hc => hc
      rintro c ⟨b, ⟨hb, -⟩, hbc, hmoved⟩
      exact ⟨Nat.le_trans hb hbc, fun h => Nat.lt_of_le_of_lt hb (hmoved h)⟩

theorem eval_seriesTurn_none {shape : SeriesShape} {b : Series β} {c : ParseContext}
    (hkind : (nextKind.eval c s).1 = none) :
    (seriesTurn shape item b).eval c s =
      (.done { b with stop := .endOfInput }, looked c.tokens s) := by
  rw [seriesTurn, seriesEnd?, bind_assoc, eval_bind, hkind]
  rfl

theorem eval_seriesTurn_terminator {shape : SeriesShape} {b : Series β} {c : ParseContext}
    {k : Kind} (hkind : (nextKind.eval c s).1 = some k) (hk : shape.terminator = some k) :
    (seriesTurn shape item b).eval c s =
      (.done { b with stop := .terminator }, looked c.tokens s) := by
  rw [seriesTurn, seriesEnd?, bind_assoc, eval_bind, hkind]
  simp only [pure_bind, hk, if_true]
  rfl

theorem eval_seriesTurn_item {shape : SeriesShape} {b : Series β} {c : ParseContext} {k : Kind}
    (hkind : (nextKind.eval c s).1 = some k) (hk : shape.terminator ≠ some k) :
    (seriesTurn shape item b).eval c s =
      match item.eval c (looked c.tokens s) with
      | (some value, s') =>
        (afterItem shape (decide (s'.cursor ≠ s.cursor))
          { b with items := b.items.push value }).eval c s'
      | (none, s') =>
        match shape.resumeSet? with
        | none => (.done { b with stop := .aborted }, s')
        | some set => (.again b, ((skipStray set shape.stray).eval c s').2) := by
  rw [seriesTurn, seriesEnd?, bind_assoc, eval_bind, hkind]
  simp only [pure_bind, if_neg hk]
  change (watched item >>= fun r => _).eval c (looked c.tokens s) = _
  rw [eval_bind, eval_watched]
  generalize item.eval c (looked c.tokens s) = r
  obtain ⟨_ | value, s'⟩ := r
  · cases shape.resumeSet? <;> rfl
  · rfl

theorem agree_items (shape : SeriesShape) (hitem : AgreeFrom tokens next n item item') :
    AgreeFrom tokens next n (items shape item) (items shape item') :=
  (agree_loop (agree_seriesTurn shape hitem) {}).bind fun _ => .pure fun _ hc => hc

end Series

section Kept

variable [RuleNode β] {body body' : Parser (Option β)}

theorem Footprint.closed {key : TokenId} {r : Option β × ParseState}
    (h : Footprint tokens (opened s.cursor s) r.2) (hkey : idAt tokens s.cursor = some key)
    (hmoves : RuleNode.rule β = .definition → Leads tokens Grammar.startsDefinition s.cursor →
      s.cursor < r.2.cursor) :
    Footprint tokens s (Parser.closed s.cursor key ⟨tokens, next, flags⟩ s r) := by
  have honward : s.cursor ≤ r.2.cursor := h.onward
  have hnodup := h.bounded.nodup
  have hother : ∀ k, k ≠ key →
      (Parser.closed s.cursor key ⟨tokens, next, flags⟩ s r).memo.bucket k = r.2.memo.bucket k :=
    fun k hk => by
    rw [Parser.closed, Memo.bucket_insert, if_neg (Ne.symm hk)]
  refine ⟨⟨hnodup, h.bounded.cursor, h.bounded.memo.insert fun i hi _ => ?_⟩, honward,
    fun k hk => ?_, fun i k flags' hi hk hleads => ?_⟩
  · have hstart : i = s.cursor := idAt_inj hnodup hi hkey
    have hwithin := h.bounded.cursor
    change i + (r.2.cursor - s.cursor) ≤ tokens.size
    omega
  · have hne : k ≠ key := fun heq => hk s.cursor (Nat.le_refl _) (heq ▸ hkey)
    rw [hother k hne]
    exact h.behind k hk
  · refine Eq.trans ?_ (h.ahead i k flags' hi hk hleads)
    by_cases hrule : RuleNode.rule β = .definition
    · refine Memo.get?_eq_of_bucket (hother k fun heq => ?_) _ _
      have hstart : i = s.cursor := idAt_inj hnodup hk (heq ▸ hkey)
      have hi : r.2.cursor ≤ i := hi
      have hlt := hmoves hrule (hstart ▸ hleads)
      omega
    · exact Memo.get?_insert_of_ne fun h => hrule h.2.1

theorem eval_remembered_congr {c : ParseContext} {t : Token} (ht : c.tokens[s.cursor]? = some t)
    (h : ∀ read, body'.eval c (opened s.cursor { s with read }) =
      body.eval c (opened s.cursor { s with read })) :
    (remembered body').eval c s = (remembered body).eval c s := by
  have hrun : ∀ read, (runAndFile s.cursor t.id body').eval c { s with read } =
      (runAndFile s.cursor t.id body).eval c { s with read } := fun read => by
    rw [eval_runAndFile, eval_runAndFile, h]
  simp only [remembered, eval_bind, eval_get, eval_tokenAt, ht, eval_onFile?]
  split
  next => rfl
  next hnone =>
    cases hget : (readPast c s.cursor s).memo.get? t.id (RuleNode.rule β) c.flags with
    | none => exact hrun _
    | some e => exact hrun _

theorem agree_remembered (h : AgreeFrom tokens next n body body')
    (hmoves : RuleNode.rule β = .definition → ∀ flags s, Bounded tokens s →
      Leads tokens Grammar.startsDefinition s.cursor →
        s.cursor < (body.eval ⟨tokens, next, flags⟩ s).2.cursor) :
    AgreeFrom tokens next n (remembered body) (remembered body') := by
  intro flags s hs hn
  cases ht : tokens[s.cursor]? with
  | none =>
    rw [eval_remembered_none (c := ⟨tokens, next, flags⟩) ht,
      eval_remembered_none (c := ⟨tokens, next, flags⟩) ht]
    obtain ⟨heq, hfoot, hn'⟩ :=
      h flags (readPast ⟨tokens, next, flags⟩ s.cursor s) ⟨hs.nodup, hs.cursor, hs.memo⟩ hn
    exact ⟨heq, hfoot.of_start rfl rfl, hn'⟩
  | some t =>
    have hkey : idAt tokens s.cursor = some t.id := idAt_eq_some ht
    have hopen : ∀ read, Bounded tokens (opened s.cursor { s with read }) := fun _ =>
      ⟨hs.nodup, hs.cursor, hs.memo⟩
    refine ⟨eval_remembered_congr (c := ⟨tokens, next, flags⟩) ht fun read =>
      (h flags _ (hopen read) hn).1, ?_⟩
    obtain ⟨read, -, -, -, ⟨e, hget, hholds, -, heval⟩ | ⟨-, heval⟩⟩ :=
      eval_remembered_some (c := ⟨tokens, next, flags⟩) body ht
    · have hfits := hs.memo _ _ (Memo.mem_bucket_of_get? hget).1 _ hkey hholds
      rw [heval]
      refine ⟨⟨⟨hs.nodup, hfits, hs.memo⟩, Nat.le_add_right .., fun _ _ => rfl,
        fun _ _ _ _ _ _ => rfl⟩, Nat.le_trans hn (Nat.le_add_right ..)⟩
    · obtain ⟨-, hfoot, hn'⟩ := h flags _ (hopen read) hn
      rw [heval, eval_runAndFile]
      refine ⟨Footprint.of_start (Footprint.closed (s := { s with read }) hfoot hkey
        fun hrule hleads => hmoves hrule flags _ (hopen read) hleads) rfl rfl, hn'⟩

theorem agree_within {within : Nat → Parser (Option β)}
    {body : Parser (Option β) → Parser (Option β)}
    (hsucc : ∀ d, within (d + 1) = remembered (body (within d)))
    (hrule : RuleNode.rule β ≠ .definition)
    (hbody : ∀ n T T', AgreeFrom tokens next (n + 1) T T' →
      AgreeFrom tokens next n (body T) (body T'))
    {n d d' : Nat} (hd : tokens.size < n + d) (hd' : tokens.size < n + d') :
    AgreeFrom tokens next n (within d) (within d') := by
  induction d generalizing n d' with
  | zero => exact fun _ s hs hn => absurd (Nat.le_trans hn hs.cursor) (Nat.not_le.mpr hd)
  | succ d ih =>
    cases d' with
    | zero => exact fun _ s hs hn => absurd (Nat.le_trans hn hs.cursor) (Nat.not_le.mpr hd')
    | succ d' =>
      rw [hsucc, hsucc]
      exact agree_remembered (hbody n _ _ (ih (by omega) (by omega))) fun h => absurd h hrule

end Kept

end Reparse
