import Reparse.Proofs.Parser.Reads

/-!
# What parsers find

The other direction: the words ahead settle how a bare run goes on. A parser finds what is written
if from every place with these words ahead its run ends behind them, without an error and with the
result they stand for. Unlike a saying about clean runs, this one promises that the run is clean.
-/

namespace Reparse

open Reparse.Parser

variable {β γ : Type} {tokens : Array Token} {flags : Flags} {least : Nat}
  {before mid after rest : List Word} {w : Word} {s : ParseState}

/-- A bare run that is in front of the given words, `least` tokens in at least, and has reported no
error so far. -/
structure At (tokens : Array Token) (least : Nat) (words : List Word) (s : ParseState) : Prop where
  read : s.read = tokens.size
  memo : s.memo.Keeps fun _ e => e.watermark = 0
  clean : s.Clean
  least : least ≤ s.cursor
  cursor : s.cursor ≤ tokens.size
  ahead : ahead tokens s.cursor = words

/-- From the words `before` on, a parser runs to the words `after` and gives a result for which `Q`
holds. -/
def Finds (tokens : Array Token) (flags : Flags) (least : Nat) (before : List Word) (p : Parser β)
    (after : List Word) (Q : β → Prop) : Prop :=
  ∀ s, At tokens least before s →
    Q (p.eval (.bare tokens flags) s).1 ∧ At tokens least after (p.eval (.bare tokens flags) s).2

def Matched (W : β → Prop) (b? : Option β) : Prop := ∃ b, b? = some b ∧ W b

namespace At

theorem mono {least' : Nat} (h : At tokens least before s) (hle : least' ≤ least) :
    At tokens least' before s := { h with least := Nat.le_trans hle h.least }

theorem looked (h : At tokens least before s) : At tokens least before (looked tokens s) :=
  { h with read := looked_read h.read }

theorem lead_eq (h : At tokens least before s) :
    tokens[nextReal tokens s.cursor]?.map Token.kind = lead before := by
  rw [lead_ahead, h.ahead]

theorem exists_next (h : At tokens least (w :: rest) s) :
    ∃ t, tokens[nextReal tokens s.cursor]? = some t ∧ t.word = w ∧
      Parser.ahead tokens (nextReal tokens s.cursor + 1) = rest := by
  have hwords := h.ahead
  cases ht : tokens[nextReal tokens s.cursor]? with
  | none =>
    rw [ahead_of_next_none ht] at hwords
    cases hwords
  | some t =>
    rw [ahead_of_next ht] at hwords
    obtain ⟨hword, hrest⟩ := List.cons.inj hwords
    exact ⟨t, rfl, hword, hrest⟩

theorem consumeMany {n : Nat} (h : At tokens least before s) (hn : s.cursor + n ≤ tokens.size)
    (hafter : Parser.ahead tokens (s.cursor + n) = after) :
    At tokens (least + n) after ((consumeMany n).eval (.bare tokens flags) s).2 := by
  obtain ⟨hcursor, hread, hmemo⟩ := eval_consumeMany (c := .bare tokens flags) hn
  refine ⟨hread.trans h.read, hmemo _ h.memo, ?_, ?_, ?_, ?_⟩
  · intro r hr
    rw [reports_consumeMany] at hr
    exact h.clean r hr
  · rw [hcursor]
    exact Nat.add_le_add_right h.least n
  · rwa [hcursor]
  · rwa [hcursor]

theorem consume (flags : Flags) (h : At tokens least (w :: rest) s) :
    Matched (fun t => t.word = w) (consume.eval (.bare tokens flags) s).1 ∧
      At tokens (least + 1) rest (consume.eval (.bare tokens flags) s).2 := by
  obtain ⟨t, ht, hword, hrest⟩ := h.exists_next
  have hlt : nextReal tokens s.cursor < tokens.size := (Array.getElem?_eq_some_iff.mp ht).1
  have hle := le_nextReal tokens s.cursor
  have hend : (Parser.looked tokens s).cursor + (nextReal tokens s.cursor + 1 - s.cursor) =
      nextReal tokens s.cursor + 1 := by
    simp only [looked_cursor]
    omega
  simp only [eval_consume, ParseContext.bare_tokens, ht]
  refine ⟨⟨t, rfl, hword⟩, (h.looked.consumeMany ?_ ?_).mono (by omega)⟩
  · rw [hend]
    exact hlt
  · rw [hend, hrest]

theorem lastConsumed (flags : Flags) (h : At tokens 1 before s) :
    ∃ t, Parser.lastConsumed.eval (.bare tokens flags) s = (some t, s) := by
  have hpos := h.least
  have hsize := h.cursor
  have hlt : s.cursor - 1 < tokens.size := by omega
  have hread : (decide (0 < s.cursor) && decide (s.cursor ≤ s.read)) = true := by
    rw [h.read]
    simp only [Bool.and_eq_true, decide_eq_true_eq]
    omega
  refine ⟨tokens[s.cursor - 1], ?_⟩
  rw [eval_lastConsumed, if_pos hread, ParseContext.bare_tokens, Array.getElem?_eq_getElem hlt]

end At

namespace Finds

variable {p : Parser β} {q : β → Parser γ} {Q Q' : β → Prop} {R : γ → Prop}

theorem pure {b : β} (h : Q b) : Finds tokens flags least before (Pure.pure b) before Q :=
  fun _ hs => ⟨h, hs⟩

theorem bind (hp : Finds tokens flags least before p mid Q)
    (hq : ∀ b, Q b → Finds tokens flags least mid (q b) after R) :
    Finds tokens flags least before (p >>= q) after R := by
  intro s hs
  obtain ⟨hQ, hs'⟩ := hp s hs
  exact hq _ hQ _ hs'

theorem weaken (hp : Finds tokens flags least before p after Q) (hQ : ∀ b, Q b → Q' b) :
    Finds tokens flags least before p after Q' :=
  fun s hs => ⟨hQ _ (hp s hs).1, (hp s hs).2⟩

theorem map {f : β → γ} (hp : Finds tokens flags least before p after Q)
    (hR : ∀ b, Q b → R (f b)) : Finds tokens flags least before (f <$> p) after R :=
  fun s hs => ⟨hR _ (hp s hs).1, (hp s hs).2⟩

theorem of_still (hreports : ∀ s, (p.eval (.bare tokens flags) s).2.reports = s.reports)
    (hcursor : ∀ s, (p.eval (.bare tokens flags) s).2.cursor = s.cursor)
    (hmemo : ∀ s, (p.eval (.bare tokens flags) s).2.memo = s.memo)
    (hread : ∀ s, s.read = tokens.size → (p.eval (.bare tokens flags) s).2.read = tokens.size)
    (hQ : ∀ s, At tokens least before s → Q (p.eval (.bare tokens flags) s).1) :
    Finds tokens flags least before p before Q := by
  intro s hs
  refine ⟨hQ s hs, hread s hs.read, hmemo s ▸ hs.memo, ?_, ?_, ?_, ?_⟩
  · intro r hr
    rw [hreports] at hr
    exact hs.clean r hr
  · rw [hcursor]
    exact hs.least
  · rw [hcursor]
    exact hs.cursor
  · rw [hcursor]
    exact hs.ahead

theorem underFlags {add remove : Flags}
    (hp : Finds tokens (flags.adjust add remove) least before p after Q) :
    Finds tokens flags least before (underFlags add remove p) after Q :=
  fun s hs => hp s hs

theorem tentatively (after : List Word) (hp : Finds tokens flags least before p after Q) :
    Finds tokens flags least before (tentatively p) before Q := by
  intro s hs
  rw [eval_tentatively]
  obtain ⟨hQ, hs'⟩ := hp { s with comments := [] } { hs with }
  exact ⟨hQ, hs'.read, hs'.memo, hs.clean, hs.least, hs.cursor, hs.ahead⟩

theorem watched (hp : Finds tokens flags least before p after Q) :
    Finds tokens flags least before (watched p) after fun b =>
      Q b.1 ∧ (before ≠ after → b.2 = true) := by
  intro s hs
  rw [eval_watched]
  obtain ⟨hQ, hs'⟩ := hp s hs
  refine ⟨⟨hQ, fun hne => decide_eq_true fun hcursor => hne ?_⟩, hs'⟩
  rw [← hs.ahead, ← hs'.ahead, hcursor]

theorem remembered [RuleNode β] {body : Parser (Option β)} {Q : Option β → Prop}
    (hbody : Finds tokens flags least before body after Q) :
    Finds tokens flags least before (remembered body) after Q := by
  intro s hs
  cases ht : tokens[s.cursor]? with
  | none =>
    rw [eval_remembered_none (c := .bare tokens flags) ht,
      readPast_eq (c := .bare tokens flags) s.cursor hs.read]
    exact hbody s hs
  | some t =>
    rw [eval_remembered_bare body ht hs.read hs.memo]
    obtain ⟨hQ, hs'⟩ := hbody (opened s.cursor s)
      ⟨hs.read, hs.memo, hs.clean, hs.least, hs.cursor, hs.ahead⟩
    exact ⟨hQ, hs'.read, hs'.memo.insert (watermark_bare hs'.read), hs'.clean, hs'.least, hs'.cursor,
      hs'.ahead⟩

end Finds

theorem finds_nextToken : Finds tokens flags least before nextToken before
    fun t? => t?.map Token.word = before.head? := by
  refine .of_still (fun _ => rfl) (fun _ => rfl) (fun _ => rfl) (fun _ => looked_read) fun s hs => ?_
  cases before with
  | nil =>
    cases ht : tokens[nextReal tokens s.cursor]? with
    | none =>
      rw [eval_nextToken, ParseContext.bare_tokens, ht]
      rfl
    | some t => cases (hs.ahead.symm.trans (ahead_of_next ht) : [] = _ :: _)
  | cons w rest =>
    obtain ⟨t, ht, hword, -⟩ := hs.exists_next
    rw [eval_nextToken, ParseContext.bare_tokens, ht]
    exact congrArg some hword

theorem finds_nextWord : Finds tokens flags least (w :: rest) nextToken (w :: rest)
    (Matched fun t => t.word = w) :=
  finds_nextToken.weaken fun _ h => Option.map_eq_some_iff.mp h

theorem finds_nextKind :
    Finds tokens flags least before nextKind before fun k? => k? = lead before :=
  .of_still (fun _ => rfl) (fun _ => rfl) (fun _ => rfl) (fun _ => looked_read) fun _ hs => hs.lead_eq

theorem finds_isNext (k : Kind) : Finds tokens flags least before (isNext k) before
    fun b => b = decide (lead before = some k) := by
  refine .of_still (fun _ => rfl) (fun _ => rfl) (fun _ => rfl) (fun _ => looked_read) fun s hs => ?_
  rw [eval_isNext, ParseContext.bare_tokens, hs.lead_eq]

theorem finds_consume : Finds tokens flags least (w :: rest) consume rest
    (Matched fun t => t.word = w) :=
  fun _ hs => ⟨(hs.consume flags).1, (hs.consume flags).2.mono (Nat.le_succ least)⟩

theorem finds_consume_bind {q : Option Token → Parser γ} {R : γ → Prop}
    (hq : ∀ t, t.word = w → Finds tokens flags (least + 1) rest (q (some t)) after R) :
    Finds tokens flags least (w :: rest) (consume >>= q) after R := by
  intro s hs
  obtain ⟨⟨t, ht, hword⟩, hs'⟩ := hs.consume flags
  obtain ⟨hR, hs''⟩ := hq t hword _ hs'
  rw [eval_bind, ht]
  exact ⟨hR, hs''.mono (Nat.le_succ least)⟩

theorem finds_consumeTrivia :
    Finds tokens flags least before consumeTrivia before fun _ => True := by
  intro s hs
  refine ⟨trivial, ?_⟩
  rw [eval_consumeTrivia]
  have hle := le_nextReal tokens s.cursor
  have hsize := nextReal_le_size hs.cursor
  have hend : (looked tokens s).cursor + (nextReal tokens s.cursor - s.cursor) =
      nextReal tokens s.cursor := by
    simp only [looked_cursor]
    omega
  refine (hs.looked.consumeMany ?_ ?_).mono (Nat.le_add_right ..)
  · rwa [ParseContext.bare_tokens, hend]
  · rw [ParseContext.bare_tokens, hend, ahead_nextReal, hs.ahead]

theorem finds_accept {k : Kind} (hk : w.kind = k) :
    Finds tokens flags least (w :: rest) (accept k) rest (Matched fun t => t.word = w) := by
  refine (finds_isNext k).bind fun b hb => ?_
  have hlead : lead (w :: rest) = some k := congrArg some hk
  rw [hb, hlead, decide_eq_true rfl]
  exact finds_consume

theorem finds_accept_none {k : Kind} (hk : lead before ≠ some k) :
    Finds tokens flags least before (accept k) before fun t? => t? = none := by
  refine (finds_isNext k).bind fun b hb => ?_
  rw [hb, decide_eq_false hk]
  exact .pure rfl

theorem finds_require {k : Kind} (hk : w.kind = k) :
    Finds tokens flags least (w :: rest) (require k) rest (Matched fun t => t.word = w) := by
  refine (finds_accept hk).bind ?_
  rintro _ ⟨t, rfl, ht⟩
  exact .pure ⟨t, rfl, ht⟩

theorem finds_claimComments :
    Finds tokens flags least before claimComments before fun _ => True :=
  .of_still (fun _ => rfl) (fun _ => rfl) (fun _ => rfl) (fun _ h => h) fun _ _ => trivial

theorem finds_flags : Finds tokens flags least before Parser.flags before fun f => f = flags :=
  .of_still (fun _ => rfl) (fun _ => rfl) (fun _ => rfl) (fun _ h => h) fun _ _ => rfl

theorem finds_extentFrom (t : Token) : Finds tokens flags 1 before (extentFrom t) before
    fun extent? => extent?.isSome = true := by
  intro s hs
  obtain ⟨last, hlast⟩ := hs.lastConsumed flags
  rw [extentFrom, eval_bind, hlast]
  exact ⟨rfl, hs⟩

theorem finds_infoFrom (t : Token) (comments : List Token) :
    Finds tokens flags 1 before (infoFrom t comments) before fun info => info.extent?.isSome = true :=
  (finds_extentFrom t).bind fun _ h => .pure h

theorem finds_infoAfter (start? : Option Info) :
    Finds tokens flags 1 before (infoAfter start?) before fun info =>
      (start?.bind Info.extent?).isSome = true → info.extent?.isSome = true := by
  rw [infoAfter]
  cases start?.bind Info.extent? with
  | none => exact .pure fun h => absurd h Bool.false_ne_true
  | some extent => exact (finds_infoFrom extent.first []).weaken fun _ h _ => h

theorem finds_closed {k : Kind} (t : Token) (comments : List Token) {f : Info → β} {Q : β → Prop}
    (hQ : ∀ info, info.extent?.isSome = true → Q (f info)) :
    Finds tokens flags 1 (.mark k :: rest)
      (do
        let _ ← require k
        return f (← infoFrom t comments)) rest Q :=
  (finds_require rfl).bind fun _ _ => (finds_infoFrom t comments).bind fun info hinfo =>
    .pure (hQ info hinfo)

theorem finds_warning {anchor : Option Anchor} {code : Code} {args : List Text}
    (hcode : code.severity ≠ .error) :
    Finds tokens flags least before (report anchor code args) before fun _ => True := by
  intro s hs
  refine ⟨trivial, { hs with clean := fun r hr => ?_ }⟩
  rw [eval_report] at hr
  rcases Array.mem_push.mp hr with hr | rfl
  · exact hs.clean r hr
  · exact hcode

theorem finds_required {rule : Parser (Option β)} {code : Code} {standIn : β} {W : β → Prop}
    (hrule : Finds tokens flags least before rule after (Matched W)) :
    Finds tokens flags least before (required rule code standIn) after W := by
  refine hrule.bind ?_
  rintro _ ⟨b, rfl, hb⟩
  exact .pure hb

end Reparse
