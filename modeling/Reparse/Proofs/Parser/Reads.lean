import Reparse.Proofs.Grammar.Spelling
import Reparse.Proofs.Parser.TwinRules

/-!
# What parsers read

A bare run is seen as reading words. What a parser does is said of runs that end without an error
among their reports: which words it consumed for what it gives. Since no step takes an error back,
such a run is one whose parts are all of this kind, so the sayings of the parts compose.
-/

namespace Reparse

open Reparse.Parser

variable {β γ : Type}

def ParseState.Clean (s : ParseState) : Prop := ∀ r ∈ s.reports, r.code.severity ≠ .error

namespace Parser

def ahead (tokens : Array Token) (cursor : Nat) : List Word :=
  Token.words (tokens.toList.drop cursor)

def lead (words : List Word) : Option Kind := words.head?.map Word.kind

@[simp] theorem lead_mark (k : Kind) (rest : List Word) : lead (.mark k :: rest) = some k := rfl

variable {tokens : Array Token} {cursor : Nat} {t : Token}

theorem ahead_eq (tokens : Array Token) (cursor : Nat) :
    ahead tokens cursor = (reals tokens cursor).map Token.word := rfl

theorem ahead_none (h : tokens[cursor]? = none) : ahead tokens cursor = [] := by
  rw [ahead_eq, reals_none h]
  rfl

theorem ahead_real (h : tokens[cursor]? = some t) (ht : t.isTrivia = false) :
    ahead tokens cursor = t.word :: ahead tokens (cursor + 1) := by
  rw [ahead_eq, reals_real h ht]
  rfl

theorem ahead_nextReal (tokens : Array Token) (cursor : Nat) :
    ahead tokens (nextReal tokens cursor) = ahead tokens cursor := by
  rw [ahead_eq, reals_nextReal]
  rfl

theorem ahead_of_next (h : tokens[nextReal tokens cursor]? = some t) :
    ahead tokens cursor = t.word :: ahead tokens (nextReal tokens cursor + 1) := by
  rw [← ahead_nextReal, ahead_real h (nextReal_real h)]

theorem ahead_of_next_none (h : tokens[nextReal tokens cursor]? = none) :
    ahead tokens cursor = [] := by
  rw [← ahead_nextReal, ahead_none h]

theorem lead_ahead (tokens : Array Token) (cursor : Nat) :
    (tokens[nextReal tokens cursor]?).map Token.kind = lead (ahead tokens cursor) := by
  cases h : tokens[nextReal tokens cursor]? with
  | none =>
    rw [ahead_of_next_none h]
    rfl
  | some t =>
    rw [ahead_of_next h]
    rfl

/-- The states of a bare run over tokens whose texts are as their kinds say. -/
structure Plain (tokens : Array Token) (s : ParseState) : Prop where
  proper : ∀ t ∈ tokens, t.word.Proper
  read : s.read = tokens.size
  memo : s.memo.Keeps fun _ e => e.watermark = 0

def Grows (p : Parser β) : Prop := ∀ c s, (p.eval c s).2.Clean → s.Clean

end Parser

/-- With the words `before` ahead, a clean run of a parser ends with a result and words ahead of
which `Q` holds. It may be known beforehand that `given` holds. -/
structure Reads (tokens : Array Token) (flags : Flags) (given : Prop) (before : List Word)
    (p : Parser β) (Q : β → List Word → Prop) : Prop where
  grows : Grows p
  reads : given → ∀ {s}, Plain tokens s → ahead tokens s.cursor = before →
    (p.eval (.bare tokens flags) s).2.Clean →
    Plain tokens (p.eval (.bare tokens flags) s).2 ∧
      Q (p.eval (.bare tokens flags) s).1 (ahead tokens (p.eval (.bare tokens flags) s).2.cursor)

variable {tokens : Array Token} {flags : Flags} {given known : Prop} {before : List Word}

namespace Parser.Grows

variable {p : Parser β} {q : β → Parser γ}

theorem pure (b : β) : Grows (Pure.pure b : Parser β) := fun _ _ h => h

theorem bind (hp : Grows p) (hq : ∀ b, Grows (q b)) : Grows (p >>= q) :=
  fun _ _ h => hp _ _ (hq _ _ _ h)

theorem of_eq (h : ∀ c s, (p.eval c s).2.reports = s.reports) : Grows p := by
  intro c s hclean r hr
  exact hclean r (by rwa [h])

end Parser.Grows

namespace Reads

variable {p : Parser β} {q : β → Parser γ} {Q Q' : β → List Word → Prop}
  {R : γ → List Word → Prop}

theorem pure {b : β} (h : given → Q b before) :
    Reads tokens flags given before (Pure.pure b) Q where
  grows := .pure b
  reads hgiven _ hs hbefore _ := ⟨hs, hbefore ▸ h hgiven⟩

theorem bind (hp : Reads tokens flags given before p Q)
    (hq : ∀ b after, Reads tokens flags (given ∧ Q b after) after (q b) R) :
    Reads tokens flags given before (p >>= q) R where
  grows := hp.grows.bind fun b => (hq b before).grows
  reads := by
    intro hgiven s hs hbefore hclean
    rw [eval_bind] at hclean ⊢
    have hmid := (hq _ before).grows _ _ hclean
    obtain ⟨hs', hQ⟩ := hp.reads hgiven hs hbefore hmid
    exact (hq _ _).reads ⟨hgiven, hQ⟩ hs' rfl hclean

theorem weaken (hp : Reads tokens flags known before p Q) (hknown : given → known)
    (hQ : given → ∀ b after, Q b after → Q' b after) : Reads tokens flags given before p Q' where
  grows := hp.grows
  reads := by
    intro hgiven s hs hbefore hclean
    obtain ⟨hs', h⟩ := hp.reads (hknown hgiven) hs hbefore hclean
    exact ⟨hs', hQ hgiven _ _ h⟩

theorem under (hp : Reads tokens flags known before p Q) (hknown : given → known) :
    Reads tokens flags given before p Q := hp.weaken hknown fun _ _ _ h => h

theorem map {f : β → γ} (hp : Reads tokens flags given before p Q)
    (hR : given → ∀ b after, Q b after → R (f b) after) :
    Reads tokens flags given before (f <$> p) R where
  grows := hp.grows
  reads := by
    intro hgiven s hs hbefore hclean
    obtain ⟨hs', h⟩ := hp.reads hgiven hs hbefore hclean
    exact ⟨hs', hR hgiven _ _ h⟩

theorem absurd (hp : Grows p) (h : ¬given) : Reads tokens flags given before p Q where
  grows := hp
  reads hgiven := (h hgiven).elim

end Reads

theorem Reads.of_still {p : Parser β} {Q : β → List Word → Prop}
    (hreports : ∀ c s, (p.eval c s).2.reports = s.reports)
    (hcursor : ∀ s, (p.eval (.bare tokens flags) s).2.cursor = s.cursor)
    (hmemo : ∀ s, (p.eval (.bare tokens flags) s).2.memo = s.memo)
    (hread : ∀ s, s.read = tokens.size →
      (p.eval (.bare tokens flags) s).2.read = tokens.size)
    (hQ : ∀ s, Plain tokens s → given → ahead tokens s.cursor = before →
      Q (p.eval (.bare tokens flags) s).1 before) :
    Reads tokens flags given before p Q where
  grows := .of_eq hreports
  reads := by
    intro hgiven s hs hbefore _
    refine ⟨⟨hs.proper, hread s hs.read, hmemo s ▸ hs.memo⟩, ?_⟩
    rw [hcursor, hbefore]
    exact hQ s hs hgiven hbefore

theorem looked_read {s : ParseState} (h : s.read = tokens.size) :
    (looked tokens s).read = tokens.size := by
  simp only [looked]
  omega

def Comes (words : List Word) : Option Token → Prop
  | none => words = []
  | some t => t.word.Proper ∧ ∃ rest, words = t.word :: rest

theorem comes_nextToken {s : ParseState} (hs : Plain tokens s)
    (h : ahead tokens s.cursor = before) :
    Comes before tokens[nextReal tokens s.cursor]? := by
  cases ht : tokens[nextReal tokens s.cursor]? with
  | none => exact h.symm.trans (ahead_of_next_none ht)
  | some t => exact ⟨hs.proper t (Array.mem_of_getElem? ht), _, h.symm.trans (ahead_of_next ht)⟩

theorem reads_nextToken : Reads tokens flags given before nextToken
    fun t? after => after = before ∧ Comes before t? :=
  .of_still (fun _ _ => rfl) (fun _ => rfl) (fun _ => rfl) (fun _ => looked_read)
    fun _ hs _ h => ⟨rfl, comes_nextToken hs h⟩

theorem reads_nextKind : Reads tokens flags given before nextKind
    fun k? after => after = before ∧ k? = lead before :=
  .of_still (fun _ _ => rfl) (fun _ => rfl) (fun _ => rfl) (fun _ => looked_read)
    fun s _ _ h => ⟨rfl, h ▸ lead_ahead tokens s.cursor⟩

theorem reads_isNext (k : Kind) : Reads tokens flags given before (isNext k)
    fun b after => after = before ∧ b = decide (lead before = some k) :=
  .of_still (fun _ _ => rfl) (fun _ => rfl) (fun _ => rfl) (fun _ => looked_read)
    fun s _ _ h => ⟨rfl, by rw [eval_isNext, ParseContext.bare_tokens, lead_ahead, h]⟩

theorem eval_consumeMany {n : Nat} {c : ParseContext} {s : ParseState}
    (h : s.cursor + n ≤ c.tokens.size) :
    ((consumeMany n).eval c s).2.cursor = s.cursor + n ∧
      ((consumeMany n).eval c s).2.read = s.read ∧
      ∀ E, s.memo.Keeps E → ((consumeMany n).eval c s).2.memo.Keeps E := by
  induction n generalizing s with
  | zero => exact ⟨rfl, rfl, fun _ hE => hE⟩
  | succ n ih =>
    have hlt : s.cursor < c.tokens.size := by omega
    rw [eval_consumeMany_succ n (Array.getElem?_eq_getElem hlt)]
    have hpast : (past c.tokens[s.cursor] s).cursor + n ≤ c.tokens.size := by
      simp only [past]
      omega
    obtain ⟨hcursor, hread, hmemo⟩ := ih hpast
    refine ⟨?_, hread, fun E hE => hmemo E (hE.evict _)⟩
    rw [hcursor]
    simp only [past]
    omega

theorem reports_consumeMany (n : Nat) (c : ParseContext) (s : ParseState) :
    ((consumeMany n).eval c s).2.reports = s.reports := by
  induction n generalizing s with
  | zero => rfl
  | succ n ih =>
    simp only [consumeMany, eval_bind, eval_read, eval_get]
    cases c.tokens[s.cursor]? with
    | none => rfl
    | some t => exact ih (past t s)

theorem reports_consume (c : ParseContext) (s : ParseState) :
    (consume.eval c s).2.reports = s.reports := by
  rw [eval_consume]
  split
  · rfl
  · exact reports_consumeMany ..

def Taken (before : List Word) : Option Token → List Word → Prop
  | none, after => before = [] ∧ after = []
  | some t, after => t.word.Proper ∧ before = t.word :: after

theorem Comes.lead {t : Token} (h : Comes before (some t)) : lead before = some t.kind := by
  obtain ⟨-, rest, rfl⟩ := h
  rfl

theorem Taken.next {t : Token} {u? : Option Token} {after : List Word} (h : Taken before u? after)
    (ht : Comes before (some t)) : before = t.word :: after := by
  obtain ⟨-, rest, rfl⟩ := ht
  cases u? with
  | none => cases h.1
  | some u =>
    obtain ⟨-, heq⟩ := h
    rw [(List.cons.inj heq).2]

theorem Taken.mark {k : Kind} {u? : Option Token} {after : List Word} (h : Taken before u? after)
    (hlead : lead before = some k) (hk : k.spelling?.isSome = true) :
    before = .mark k :: after := by
  cases u? with
  | none =>
    rw [h.1] at hlead
    cases hlead
  | some u =>
    obtain ⟨hproper, rfl⟩ := h
    rw [hproper.eq_mark (Option.some.inj hlead) hk]

theorem reads_consume : Reads tokens flags given before consume (Taken before) where
  grows := .of_eq reports_consume
  reads := by
    intro _ s hs hbefore _
    rw [eval_consume]
    simp only [ParseContext.bare_tokens]
    have hread := looked_read hs.read
    cases ht : tokens[nextReal tokens s.cursor]? with
    | none =>
      have hnil := ahead_of_next_none ht
      exact ⟨⟨hs.proper, hread, hs.memo⟩, hbefore.symm.trans hnil, hnil⟩
    | some t =>
      have hlt : nextReal tokens s.cursor < tokens.size := (Array.getElem?_eq_some_iff.mp ht).1
      have hle := le_nextReal tokens s.cursor
      have hsteps : (looked tokens s).cursor + (nextReal tokens s.cursor + 1 - s.cursor) ≤
          (ParseContext.bare tokens flags).tokens.size := by
        simp only [looked_cursor, ParseContext.bare_tokens]
        omega
      obtain ⟨hcursor, hread', hmemo⟩ := eval_consumeMany hsteps
      have hend : (looked tokens s).cursor + (nextReal tokens s.cursor + 1 - s.cursor) =
          nextReal tokens s.cursor + 1 := by
        simp only [looked_cursor]
        omega
      refine ⟨⟨hs.proper, hread'.trans hread, hmemo _ hs.memo⟩, ?_, ?_⟩
      · exact hs.proper t (Array.mem_of_getElem? ht)
      · rw [hcursor, hend, ← hbefore]
        exact ahead_of_next ht

theorem reads_consumeTrivia :
    Reads tokens flags given before consumeTrivia fun _ after => after = before where
  grows := .of_eq fun c s => by
    rw [eval_consumeTrivia]
    exact reports_consumeMany ..
  reads := by
    intro _ s hs hbefore _
    rw [eval_consumeTrivia]
    simp only [ParseContext.bare_tokens]
    have hle := le_nextReal tokens s.cursor
    have hlooked := looked_read hs.read
    by_cases hend : s.cursor ≤ tokens.size
    · have hsteps : (looked tokens s).cursor + (nextReal tokens s.cursor - s.cursor) ≤
          (ParseContext.bare tokens flags).tokens.size := by
        have hsize := nextReal_le_size hend
        simp only [looked_cursor, ParseContext.bare_tokens]
        omega
      obtain ⟨hcursor, hread, hmemo⟩ := eval_consumeMany hsteps
      have heq : (looked tokens s).cursor + (nextReal tokens s.cursor - s.cursor) =
          nextReal tokens s.cursor := by
        simp only [looked_cursor]
        omega
      refine ⟨⟨hs.proper, hread.trans hlooked, hmemo _ hs.memo⟩, ?_⟩
      rw [hcursor, heq, ahead_nextReal, hbefore]
    · have hstay : nextReal tokens s.cursor - s.cursor = 0 := by
        have hnone : tokens.size - s.cursor = 0 := by omega
        simp only [nextReal, hnone, realFrom, Nat.sub_self]
      rw [hstay]
      exact ⟨⟨hs.proper, hlooked, hs.memo⟩, hbefore⟩

def Accepted (k : Kind) (before : List Word) : Option Token → List Word → Prop
  | none, after => after = before ∧ lead before ≠ some k
  | some t, after => t.kind = k ∧ t.word.Proper ∧ before = t.word :: after

theorem reads_accept (k : Kind) :
    Reads tokens flags given before (accept k) (Accepted k before) := by
  refine (reads_isNext k).bind fun b after => ?_
  cases b with
  | false => exact .pure fun h => ⟨h.2.1, fun hlead => by simpa [hlead] using h.2.2⟩
  | true =>
    refine reads_consume.weaken (fun h => h) ?_
    rintro ⟨-, rfl, hlead⟩ t? rest h
    have hk : lead after = some k := of_decide_eq_true hlead.symm
    cases t? with
    | none =>
      rw [h.1] at hk
      cases hk
    | some t =>
      rw [h.2] at hk
      exact ⟨Option.some.inj hk, h.1, h.2⟩

theorem reads_acceptMark {k : Kind} (hk : k.spelling?.isSome = true) :
    Reads tokens flags given before (accept k) fun t? after =>
      match t? with
      | none => after = before ∧ lead before ≠ some k
      | some _ => before = .mark k :: after := by
  refine (reads_accept k).weaken (fun h => h) fun _ t? after h => ?_
  cases t? with
  | none => exact h
  | some t => exact h.2.2.trans (congrArg (· :: after) (h.2.1.eq_mark h.1 hk))

theorem reads_claimComments : Reads tokens flags given before claimComments
    fun _ after => after = before :=
  .of_still (fun _ _ => rfl) (fun _ => rfl) (fun _ => rfl) (fun _ h => h) fun _ _ _ _ => rfl

theorem reads_flags : Reads tokens flags given before Parser.flags
    fun f after => f = flags ∧ after = before :=
  .of_still (fun _ _ => rfl) (fun _ => rfl) (fun _ => rfl) (fun _ h => h) fun _ _ _ _ => ⟨rfl, rfl⟩

theorem reads_extentFrom (t : Token) : Reads tokens flags given before (extentFrom t)
    fun _ after => after = before := by
  have hstate : ∀ c s, ((extentFrom t).eval c s).2 = s := fun c s => by
    rw [extentFrom, eval_bind, eval_lastConsumed, eval_pure]
  exact .of_still (fun c s => by rw [hstate]) (fun s => by rw [hstate]) (fun s => by rw [hstate])
    (fun s h => by rwa [hstate]) fun _ _ _ _ => rfl

theorem reads_infoFrom (t : Token) (comments : List Token) :
    Reads tokens flags given before (infoFrom t comments) fun _ after => after = before :=
  (reads_extentFrom t).bind fun _ _ => .pure fun h => h.2

theorem reads_infoAfter (start? : Option Info) :
    Reads tokens flags given before (infoAfter start?) fun _ after => after = before := by
  rw [infoAfter]
  cases start?.bind Info.extent? with
  | none => exact .pure fun _ => rfl
  | some extent => exact reads_infoFrom extent.first []

theorem Parser.Grows.report (anchor : Option Anchor) (code : Code) (args : List Text) :
    Grows (report anchor code args) := by
  intro c s h r hr
  exact h r (Array.mem_push_of_mem _ hr)

theorem reads_warning (anchor : Option Anchor) (code : Code) (args : List Text) :
    Reads tokens flags given before (report anchor code args) fun _ after => after = before where
  grows := .report anchor code args
  reads _ _ hs hbefore _ := ⟨⟨hs.proper, hs.read, hs.memo⟩, hbefore⟩

theorem reads_fault {anchor : Option Anchor} {code : Code} {args : List Text}
    (hcode : code.severity = .error) :
    Reads tokens flags given before (report anchor code args) fun _ _ => False where
  grows := .report anchor code args
  reads _ _ _ _ hclean := (hclean _ Array.mem_push_self hcode).elim

theorem reads_reportNext {code : Code} {args : List Text} (hcode : code.severity = .error) :
    Reads tokens flags given before (reportNext code args) fun _ _ => False where
  grows := by
    intro c s h r hr
    rw [eval_reportNext] at h
    exact h r (Array.mem_push_of_mem _ hr)
  reads _ s _ _ hclean := by
    rw [eval_reportNext] at hclean
    exact (hclean _ Array.mem_push_self hcode).elim

def Yields (W : β → List Word → Prop) (before : List Word) : Option β → List Word → Prop
  | none, after => after = before
  | some b, after => W b after

theorem reads_required {rule : Parser (Option β)} {code : Code} {standIn : β}
    {W : β → List Word → Prop} (hrule : Reads tokens flags given before rule (Yields W before))
    (hcode : code.severity = .error) :
    Reads tokens flags given before (required rule code standIn) W := by
  refine hrule.bind fun b? after => ?_
  cases b? with
  | none => exact (reads_reportNext hcode).bind fun _ _ => .pure fun h => h.2.elim
  | some b => exact .pure fun h => h.2

theorem reads_require {k : Kind} (hk : k.spelling?.isSome = true) :
    Reads tokens flags given before (require k) fun t? after =>
      t?.isSome = true ∧ before = .mark k :: after := by
  refine (reads_acceptMark hk).bind fun t? after => ?_
  cases t? with
  | none => exact (reads_reportNext rfl).bind fun _ _ => .pure fun h => h.2.elim
  | some t => exact .pure fun h => ⟨rfl, h.2⟩

theorem Reads.underFlags {add remove : Flags} {p : Parser β} {Q : β → List Word → Prop}
    (hp : Reads tokens (flags.adjust add remove) given before p Q) :
    Reads tokens flags given before (underFlags add remove p) Q where
  grows c s h := hp.grows { c with flags := c.flags.adjust add remove } s h
  reads hgiven _ hs hbefore hclean := hp.reads hgiven hs hbefore hclean

theorem Reads.tentatively {p : Parser β} {Q : β → List Word → Prop}
    (hp : Reads tokens flags given before p Q)
    (hsilent : ∀ c s, (p.eval c s).2.reports = s.reports) :
    Reads tokens flags given before (tentatively p)
      fun b after => after = before ∧ ∃ rest, Q b rest where
  grows _ _ h := h
  reads := by
    intro hgiven s hs hbefore hclean
    rw [eval_tentatively] at hclean ⊢
    have hstart : Plain tokens { s with comments := [] } := ⟨hs.proper, hs.read, hs.memo⟩
    have hinner : (p.eval (.bare tokens flags) { s with comments := [] }).2.Clean := by
      intro r hr
      rw [hsilent] at hr
      exact hclean r hr
    obtain ⟨hs', hQ⟩ := hp.reads hgiven hstart hbefore hinner
    exact ⟨⟨hs'.proper, hs'.read, hs'.memo⟩, hbefore, _, hQ⟩

theorem Reads.watched {p : Parser β} {Q : β → List Word → Prop}
    (hp : Reads tokens flags given before p Q) :
    Reads tokens flags given before (watched p)
      fun b after => Q b.1 after ∧ (b.2 = false → after = before) where
  grows c s h := hp.grows c s h
  reads := by
    intro hgiven s hs hbefore hclean
    rw [eval_watched] at hclean ⊢
    obtain ⟨hs', hQ⟩ := hp.reads hgiven hs hbefore hclean
    refine ⟨hs', hQ, fun hmoved => ?_⟩
    have hcursor : (p.eval (.bare tokens flags) s).2.cursor = s.cursor := by simpa using hmoved
    rw [hcursor, hbefore]

theorem Parser.Grows.remembered [RuleNode β] {body : Parser (Option β)} (h : Grows body) :
    Grows (remembered body) := by
  intro c s hclean
  cases ht : c.tokens[s.cursor]? with
  | none =>
    rw [eval_remembered_none ht] at hclean
    exact h c (readPast c s.cursor s) hclean
  | some t =>
    obtain ⟨read, -, -, -, ⟨e, -, -, -, heval⟩ | ⟨-, heval⟩⟩ := eval_remembered_some body ht
    · rw [heval] at hclean
      intro r hr
      exact hclean r (Array.mem_append_left _ hr)
    · rw [heval] at hclean
      exact h c (opened s.cursor { s with read }) hclean

theorem Reads.remembered [RuleNode β] {body : Parser (Option β)} {Q : Option β → List Word → Prop}
    (hbody : Reads tokens flags given before body Q) :
    Reads tokens flags given before (remembered body) Q where
  grows := hbody.grows.remembered
  reads := by
    intro hgiven s hs hbefore hclean
    cases ht : tokens[s.cursor]? with
    | none =>
      have hread := readPast_eq (c := .bare tokens flags) s.cursor hs.read
      rw [eval_remembered_none (c := .bare tokens flags) ht, hread] at hclean ⊢
      exact hbody.reads hgiven hs hbefore hclean
    | some t =>
      rw [eval_remembered_bare body ht hs.read hs.memo] at hclean ⊢
      have hstart : Plain tokens (opened s.cursor s) := ⟨hs.proper, hs.read, hs.memo⟩
      obtain ⟨hs', hQ⟩ := hbody.reads hgiven hstart hbefore hclean
      exact ⟨⟨hs'.proper, hs'.read, hs'.memo.insert (watermark_bare hs'.read)⟩, hQ⟩

end Reparse
