import Reparse.Proofs.Parser.Headway
import Reparse.Proofs.Parser.Strides
import Reparse.Proofs.Progress

/-!
# Steps of a series

A series goes from state to state by three kinds of steps: it takes an item, or a delimiter behind
an item, or it recovers from where no item is found. Nothing is known of the item but that it
decides, so the states are not those of bare runs: any sort of states will do that looking,
consuming and reporting do not leave.
-/

namespace Reparse

open Reparse.Parser

variable {β : Type} {c : ParseContext} {I : ParseState → Prop} {shape : SeriesShape}
  {item : Parser (Option β)} {s s' s'' : ParseState} {t : Token}

/-- A sort of states that looking, consuming and reporting do not leave. -/
structure Kept (c : ParseContext) (I : ParseState → Prop) : Prop where
  within : ∀ {s}, I s → s.cursor ≤ c.tokens.size
  look : ∀ {s}, I s → I (looked c.tokens s)
  take : ∀ {s}, I s → I (consume.eval c s).2
  note : ∀ {s} r, I s → I (noted r s)

theorem kept_within (c : ParseContext) : Kept c fun s => s.cursor ≤ c.tokens.size where
  within hs := hs
  look hs := hs
  take hs := (passes_consume hs).1.within
  note _ hs := hs

structure DecidesFrom (c : ParseContext) (I : ParseState → Prop) (item : Parser (Option β)) :
    Prop where
  decides : ∀ {s}, I s →
    Decides c.tokens s.trail (item.eval c s).1 (item.eval c s).2.trail
  kept : ∀ {s}, I s → I (item.eval c s).2

theorem decidesFrom_within (h : ∀ s, s.cursor ≤ c.tokens.size →
    Decides c.tokens s.trail (item.eval c s).1 (item.eval c s).2.trail) :
    DecidesFrom c (fun s => s.cursor ≤ c.tokens.size) item where
  decides hs := h _ hs
  kept {s} hs := by
    have hdecides := h s hs
    generalize item.eval c s = r at hdecides
    obtain ⟨_ | x, s'⟩ := r
    · have hcursor : s'.cursor = s.cursor := congrArg Trail.cursor hdecides
      exact Nat.le_trans (Nat.le_of_eq hcursor) hs
    · obtain ⟨hlt, t, ht, -⟩ : Gains c.tokens s.cursor s'.cursor := hdecides
      exact Nat.le_of_pred_lt (Array.getElem?_eq_some_iff.mp ht).1

theorem reals_eq_nil_iff {tokens : Array Token} {i : Nat} :
    reals tokens i = [] ↔ tokens[nextReal tokens i]? = none := by
  constructor
  · intro hnil
    cases ht : tokens[nextReal tokens i]? with
    | none => rfl
    | some t => exact absurd ((reals_of_next ht).symm.trans hnil) (List.cons_ne_nil _ _)
  · exact reals_of_next_none

theorem Gains.reals {tokens : Array Token} {i j : Nat} (h : Gains tokens i j) :
    ∃ run, run ≠ [] ∧ reals tokens i = run ++ reals tokens j := by
  obtain ⟨hlt, t, ht, hreal⟩ := h
  have hmem : t ∈ stretch tokens i j :=
    mem_stretch (Nat.le_sub_one_of_lt hlt) (Nat.sub_one_lt_of_lt hlt) ht
  have hpassed : t ∈ (stretch tokens i j).filter fun t => !t.isTrivia :=
    List.mem_filter.mpr ⟨hmem, by simp [hreal]⟩
  exact ⟨_, List.ne_nil_of_mem hpassed, (filter_stretch_append_reals (Nat.le_of_lt hlt)).symm⟩

theorem eval_consume_looked (c : ParseContext) (s : ParseState) :
    consume.eval c (looked c.tokens s) = consume.eval c s := by
  rw [eval_consume, eval_consume, looked_cursor, looked_looked]

theorem eval_accept (k : Kind) (c : ParseContext) (s : ParseState) :
    (accept k).eval c s = if (s.trail.next? c.tokens).map Token.kind = some k
      then consume.eval c s else (none, looked c.tokens s) := by
  rw [accept, eval_bind, eval_isNext]
  by_cases hk : (s.trail.next? c.tokens).map Token.kind = some k
  · rw [if_pos hk, ← eval_consume_looked]
    exact congrArg (fun p : Parser (Option Token) => p.eval c (looked c.tokens s))
      (if_pos (decide_eq_true hk))
  · rw [if_neg hk]
    exact congrArg (fun p : Parser (Option Token) => p.eval c (looked c.tokens s))
      (if_neg (mt of_decide_eq_true hk))

theorem decides_accept (k : Kind) (c : ParseContext) (s : ParseState)
    (hs : s.cursor ≤ c.tokens.size) :
    Decides c.tokens s.trail ((accept k).eval c s).1 ((accept k).eval c s).2.trail := by
  rw [eval_accept]
  by_cases hk : (s.trail.next? c.tokens).map Token.kind = some k
  · obtain ⟨t, ht, -⟩ := Option.map_eq_some_iff.mp hk
    obtain ⟨-, hvalue, hcursor⟩ := passes_consume hs
    have hsome : (consume.eval c s).1 = some t := hvalue.trans ht
    rw [hsome, if_pos Option.isSome_some] at hcursor
    rw [if_pos hk, hsome]
    show Gains c.tokens s.cursor (consume.eval c s).2.cursor
    rw [hcursor]
    exact gains_past ht
  · rw [if_neg hk]
    rfl

theorem skipTurn_cases (set : KindSet) (b : Bool) (c : ParseContext) (s : ParseState) :
    s.trail.next? c.tokens = none ∧
        (skipTurn set b).eval c s = (.done false, looked c.tokens s) ∨
      ∃ t, s.trail.next? c.tokens = some t ∧
        if t.kind ∈ set then (skipTurn set b).eval c s = (.done true, looked c.tokens s)
        else (skipTurn set b).eval c s = (.again false, (consume.eval c s).2) := by
  have hkind : (nextKind.eval c s).1 = (s.trail.next? c.tokens).map Token.kind := rfl
  rw [skipTurn, eval_bind, hkind]
  cases s.trail.next? c.tokens with
  | none => exact .inl ⟨rfl, rfl⟩
  | some t =>
    refine .inr ⟨t, rfl, ?_⟩
    simp only [Option.map_some, KindSet.mem_def]
    split
    · rfl
    · rw [← eval_consume_looked]
      rfl

structure Passed (c : ParseContext) (I : ParseState → Prop) (s : ParseState) (run : List Token)
    (s' : ParseState) : Prop where
  kept : I s'
  reports : s'.reports = s.reports
  le : s.cursor ≤ s'.cursor
  reals : reals c.tokens s.cursor = run ++ reals c.tokens s'.cursor

namespace Passed

variable {run run' : List Token}

theorem trans (h : Passed c I s run s') (h' : Passed c I s' run' s'') :
    Passed c I s (run ++ run') s'' where
  kept := h'.kept
  reports := h'.reports.trans h.reports
  le := Nat.le_trans h.le h'.le
  reals := by rw [h.reals, h'.reals, List.append_assoc]

theorem lt (h : Passed c I s (t :: run) s') : s.cursor < s'.cursor := by
  refine Nat.lt_of_le_of_ne h.le fun heq => ?_
  have hreals := h.reals
  rw [heq] at hreals
  exact List.cons_ne_nil _ _ (List.self_eq_append_left.mp hreals)

end Passed

namespace Kept

theorem still (h : Kept c I) (hs : I s) : Passed c I s [] (looked c.tokens s) :=
  ⟨h.look hs, rfl, Nat.le_refl _, rfl⟩

theorem taken (h : Kept c I) (hs : I s) (ht : s.trail.next? c.tokens = some t) :
    (consume.eval c s).1 = some t ∧ Passed c I s [t] (consume.eval c s).2 := by
  obtain ⟨-, hvalue, hcursor⟩ := passes_consume (h.within hs)
  have hsome : (consume.eval c s).1 = some t := hvalue.trans ht
  rw [hsome, if_pos Option.isSome_some] at hcursor
  refine ⟨hsome, h.take hs, reports_consume c s, ?_, ?_⟩
  · rw [hcursor]
    exact Nat.le_succ_of_le (le_nextReal c.tokens s.cursor)
  · rw [hcursor]
    exact reals_of_next ht

theorem skipped (h : Kept c I) (set : KindSet) {b found : Bool}
    (hends : Finishes (skipTurn set) c b s found s') (hs : I s) :
    ∃ run, Passed c I s run s' ∧ (∀ t ∈ run, t.kind ∉ set) ∧
      if found = true then ∃ t, s'.trail.next? c.tokens = some t ∧ t.kind ∈ set
      else s'.trail.next? c.tokens = none := by
  induction hends with
  | @done b found s s' hturn =>
    rcases skipTurn_cases set b c s with ⟨hend, heval⟩ | ⟨t, ht, heval⟩
    · cases hturn.symm.trans heval
      exact ⟨[], h.still hs, List.forall_mem_nil _, hend⟩
    · split at heval
      · next hset =>
        cases hturn.symm.trans heval
        exact ⟨[], h.still hs, List.forall_mem_nil _, t, ht, hset⟩
      · cases hturn.symm.trans heval
  | @again b b' found s s₁ s' hturn _ _ _ ih =>
    rcases skipTurn_cases set b c s with ⟨hend, heval⟩ | ⟨t, ht, heval⟩
    · cases hturn.symm.trans heval
    · split at heval
      · cases hturn.symm.trans heval
      · next hset =>
        cases hturn.symm.trans heval
        obtain ⟨-, hpassed⟩ := h.taken hs ht
        obtain ⟨run, hpassed', hout, hfound⟩ := ih hpassed.kept
        exact ⟨t :: run, hpassed.trans hpassed', List.forall_mem_cons.mpr ⟨hset, hout⟩, hfound⟩

theorem passesOn (h : Kept c I) (hs : I s) (set : KindSet) :
    ∃ run, Passed c I s run ((skipOn set).eval c s).2 ∧
      Skips set run (reals c.tokens ((skipOn set).eval c s).2.cursor) := by
  obtain ⟨found, s₁, hends⟩ := exists_finishes (progresses_skipTurn set) c false s
  obtain ⟨run, hpassed, hout, hfound⟩ := h.skipped set hends hs
  rw [skipOn, eval_bind, skipTo_eq, hends.eval_loop]
  cases found with
  | false =>
    refine ⟨run, hpassed, ?_⟩
    have hend : reals c.tokens s₁.cursor = [] := reals_of_next_none hfound
    exact hend ▸ .toEnd hout
  | true =>
    obtain ⟨t, ht, hset⟩ := hfound
    simp only [if_true, eval_bind, eval_accept, eval_pure, ht, Option.map_some]
    by_cases hkind : t.kind = .semicolon
    · rw [if_pos (congrArg some hkind)]
      obtain ⟨-, hpassed'⟩ := h.taken hpassed.kept ht
      exact ⟨run ++ [t], hpassed.trans hpassed', .through hout hset hkind⟩
    · rw [if_neg fun heq => hkind (Option.some.inj heq)]
      refine ⟨run, List.append_nil run ▸ hpassed.trans (h.still hpassed.kept), ?_⟩
      have hreals : reals c.tokens (looked c.tokens s₁).cursor = _ := reals_of_next ht
      rw [hreals]
      exact .before hout hset hkind

theorem recovers (h : Kept c I) (hs : I s) (ht : s.trail.next? c.tokens = some t) (set : KindSet)
    (code : Code) :
    I ((skipStray set code).eval c s).2 ∧ s.cursor < ((skipStray set code).eval c s).2.cursor ∧
      ((skipStray set code).eval c s).2.reports = s.reports.push (.stray code t) ∧
      ∃ run, reals c.tokens s.cursor =
          t :: (run ++ reals c.tokens ((skipStray set code).eval c s).2.cursor) ∧
        Skips set run (reals c.tokens ((skipStray set code).eval c s).2.cursor) := by
  obtain ⟨-, hpassed⟩ := h.taken hs ht
  have hnoted := h.note (.stray code t) hpassed.kept
  have hadded : (noted (.stray code t) (consume.eval c s).2).reports =
      s.reports.push (.stray code t) := by
    rw [noted, hpassed.reports]
  obtain ⟨run, hpassed', hskips⟩ := h.passesOn hnoted set
  rw [eval_skipStray ht]
  refine ⟨hpassed'.kept, Nat.lt_of_lt_of_le hpassed.lt hpassed'.le, hpassed'.reports.trans hadded,
    run, ?_, hskips⟩
  rw [hpassed.reals]
  exact congrArg (t :: ·) hpassed'.reals

end Kept

/-- Some of the real tokens that a series consumes: those of an item, a delimiter, or a token that was
reported where no item was found, with the run of tokens skipped behind it. -/
inductive Portion (β : Type)
  | item (value : β) (run : List Token)
  | delimiter (t : Token)
  | recovered (t : Token) (run : List Token)

namespace Portion

def tokens : Portion β → List Token
  | .item _ run => run
  | .delimiter t => [t]
  | .recovered t run => t :: run

def value? : Portion β → Option β
  | .item value _ => some value
  | .delimiter _ | .recovered _ _ => none

structure SparesTerminator (shape : SeriesShape) (p : Portion β) : Prop where
  first : ∀ t, p.tokens.head? = some t → shape.terminator ≠ some t.kind
  outside : p.value? = none → ∀ t ∈ p.tokens, shape.terminator ≠ some t.kind

end Portion

namespace SeriesShape

def endAt? (shape : SeriesShape) : Option Token → Option SeriesEnd
  | none => some .endOfInput
  | some t => if shape.terminator = some t.kind then some .terminator else none

def Misplaces (shape : SeriesShape) (next? : Option Token) : Prop :=
  shape.allowTrailing = false ∧ ∃ t, next? = some t ∧ shape.terminator = some t.kind

end SeriesShape

/-- The steps of a series, with what they consume and report. An item is run when the next real token
is not the terminator; its reports are its own. -/
inductive SeriesStep (shape : SeriesShape) (item : Parser (Option β)) (c : ParseContext) :
    ParseState → Portion β → ParseState → Prop
  | item {s s' : ParseState} {x : β} {run : List Token} :
      shape.endAt? (s.trail.next? c.tokens) = none →
      item.eval c (looked c.tokens s) = (some x, s') →
      run ≠ [] → reals c.tokens s.cursor = run ++ reals c.tokens s'.cursor →
      SeriesStep shape item c s (.item x run) s'
  | delimiter {s s' : ParseState} {t : Token} :
      shape.delimiter = some t.kind →
      reals c.tokens s.cursor = t :: reals c.tokens s'.cursor →
      shape.Misplaces (s'.trail.next? c.tokens) ∧
          s'.reports = s.reports.push (.stray .strayToken t) ∨
        ¬shape.Misplaces (s'.trail.next? c.tokens) ∧ s'.reports = s.reports →
      SeriesStep shape item c s (.delimiter t) s'
  | recovered {s s' : ParseState} {t : Token} {run : List Token} {set : KindSet} :
      shape.terminator ≠ some t.kind →
      (item.eval c (looked c.tokens s)).1.isNone = true →
      shape.resumeSet? = some set →
      reals c.tokens s.cursor = t :: (run ++ reals c.tokens s'.cursor) →
      Skips set run (reals c.tokens s'.cursor) →
      s'.reports = s.reports.push (.stray shape.stray t) →
      SeriesStep shape item c s (.recovered t run) s'

/-- What a turn of a series comes to: it ends the series, or it makes one or two steps. -/
inductive SeriesTurned (shape : SeriesShape) (item : Parser (Option β)) (c : ParseContext)
    (I : ParseState → Prop) (b : Series β) (s : ParseState) : Turn (Series β) → ParseState → Prop
  | ended {s' : ParseState} {stop : SeriesEnd} :
      shape.endAt? (s.trail.next? c.tokens) = some stop → s'.trail = s.trail →
      SeriesTurned shape item c I b s (.done { b with stop }) s'
  | aborted {s' : ParseState} :
      shape.endAt? (s.trail.next? c.tokens) = none → shape.resync = none → s'.trail = s.trail →
      SeriesTurned shape item c I b s (.done { b with stop := .aborted }) s'
  | recovered {s' : ParseState} {t : Token} {run : List Token} :
      SeriesStep shape item c s (.recovered t run) s' → I s' → s.cursor < s'.cursor →
      SeriesTurned shape item c I b s (.again b) s'
  | item {s' : ParseState} {x : β} {run : List Token} :
      shape.delimiter = none → SeriesStep shape item c s (.item x run) s' → I s' →
      s.cursor < s'.cursor →
      SeriesTurned shape item c I b s (.again { b with items := b.items.push x }) s'
  | delimited {s₁ s' : ParseState} {x : β} {run : List Token} {t : Token} :
      SeriesStep shape item c s (.item x run) s₁ → SeriesStep shape item c s₁ (.delimiter t) s' →
      I s' → s.cursor < s'.cursor →
      SeriesTurned shape item c I b s (.again { b with items := b.items.push x }) s'
  | last {s₁ s' : ParseState} {x : β} {run : List Token} {delimiter : Kind} :
      SeriesStep shape item c s (.item x run) s₁ → shape.delimiter = some delimiter →
      (s₁.trail.next? c.tokens).map Token.kind ≠ some delimiter → s'.trail = s₁.trail →
      SeriesTurned shape item c I b s (.done { b with
        items := b.items.push x
        stop := (shape.endAt? (s₁.trail.next? c.tokens)).getD .aborted }) s'

theorem SeriesShape.endAt?_of_ne (ht : s.trail.next? c.tokens = some t)
    (hterminator : shape.terminator ≠ some t.kind) :
    shape.endAt? (s.trail.next? c.tokens) = none := by
  rw [ht]
  exact if_neg hterminator

theorem eval_seriesEnd? (shape : SeriesShape) (c : ParseContext) (s : ParseState) :
    (seriesEnd? shape).eval c s =
      (shape.endAt? (s.trail.next? c.tokens), looked c.tokens s) := by
  have hkind : (nextKind.eval c s).1 = (s.trail.next? c.tokens).map Token.kind := rfl
  rw [seriesEnd?, eval_bind, hkind]
  cases s.trail.next? c.tokens <;> rfl

theorem eval_checkTrailing_misplaced (h : shape.Misplaces (s.trail.next? c.tokens)) (t : Token) :
    (checkTrailing shape t).eval c s =
      ((), noted (.stray .strayToken t) (looked c.tokens s)) := by
  obtain ⟨hallow, u, hu, hterminator⟩ := h
  have hkind : (s.trail.next? c.tokens).map Token.kind = some u.kind := congrArg _ hu
  simp only [checkTrailing, hallow, hterminator, eval_bind, eval_isNext]
  exact congrArg (fun p : Parser Unit => p.eval c (looked c.tokens s))
    (if_pos (decide_eq_true hkind))

theorem eval_checkTrailing_placed (h : ¬shape.Misplaces (s.trail.next? c.tokens)) (t : Token) :
    (checkTrailing shape t).eval c s = ((), s) ∨
      (checkTrailing shape t).eval c s = ((), looked c.tokens s) := by
  cases hallow : shape.allowTrailing with
  | true => exact .inl (by simp only [checkTrailing, hallow, eval_pure])
  | false =>
    cases hterminator : shape.terminator with
    | none => exact .inl (by simp only [checkTrailing, hallow, hterminator, eval_pure])
    | some k =>
      have hkind : (s.trail.next? c.tokens).map Token.kind ≠ some k := fun hk => by
        obtain ⟨u, hu, rfl⟩ := Option.map_eq_some_iff.mp hk
        exact h ⟨hallow, u, hu, hterminator⟩
      simp only [checkTrailing, hallow, hterminator, eval_bind, eval_isNext]
      exact .inr (congrArg (fun p : Parser Unit => p.eval c (looked c.tokens s))
        (if_neg (mt of_decide_eq_true hkind)))

theorem Kept.checks (h : Kept c I) (hs : I s) (shape : SeriesShape) (t : Token) :
    I ((checkTrailing shape t).eval c s).2 ∧
      ((checkTrailing shape t).eval c s).2.cursor = s.cursor ∧
      (shape.Misplaces (s.trail.next? c.tokens) ∧
          ((checkTrailing shape t).eval c s).2.reports = s.reports.push (.stray .strayToken t) ∨
        ¬shape.Misplaces (s.trail.next? c.tokens) ∧
          ((checkTrailing shape t).eval c s).2.reports = s.reports) := by
  by_cases hmisplaces : shape.Misplaces (s.trail.next? c.tokens)
  · rw [eval_checkTrailing_misplaced hmisplaces]
    exact ⟨h.note _ (h.look hs), rfl, .inl ⟨hmisplaces, rfl⟩⟩
  · rcases eval_checkTrailing_placed hmisplaces t with heval | heval
    · rw [heval]
      exact ⟨hs, rfl, .inr ⟨hmisplaces, rfl⟩⟩
    · rw [heval]
      exact ⟨h.look hs, rfl, .inr ⟨hmisplaces, rfl⟩⟩

section

variable (hkept : Kept c I) (hitem : DecidesFrom c I item) (hs : I s)

include hkept hitem hs

theorem seriesStep_item {x : β} (hgoes : shape.endAt? (s.trail.next? c.tokens) = none)
    (heval : item.eval c (looked c.tokens s) = (some x, s')) :
    ∃ run, SeriesStep shape item c s (.item x run) s' ∧ I s' ∧ s.cursor < s'.cursor := by
  have hdecides := hitem.decides (hkept.look hs)
  have hI := hitem.kept (hkept.look hs)
  rw [heval] at hdecides hI
  have hgains : Gains c.tokens s.cursor s'.cursor := hdecides
  obtain ⟨run, hsome, hreals⟩ := hgains.reals
  exact ⟨run, .item hgoes heval hsome hreals, hI, hgains.1⟩

theorem seriesStep_recovered {set : KindSet} (ht : s.trail.next? c.tokens = some t)
    (hterminator : shape.terminator ≠ some t.kind) (hset : shape.resumeSet? = some set)
    (heval : item.eval c (looked c.tokens s) = (none, s')) :
    ∃ run, SeriesStep shape item c s (.recovered t run)
        ((skipStray set shape.stray).eval c s').2 ∧
      I ((skipStray set shape.stray).eval c s').2 ∧
      s.cursor < ((skipStray set shape.stray).eval c s').2.cursor := by
  have hdecides := hitem.decides (hkept.look hs)
  have hI := hitem.kept (hkept.look hs)
  rw [heval] at hdecides hI
  have htrail : s'.trail = s.trail := hdecides
  have hcursor : s'.cursor = s.cursor := congrArg Trail.cursor htrail
  have hreports : s'.reports = s.reports := Array.toList_inj.mp (congrArg Trail.reports htrail)
  have hnext : s'.trail.next? c.tokens = some t := by rw [htrail, ht]
  obtain ⟨hI', hlt, hadded, run, hreals, hskips⟩ := hkept.recovers hI hnext set shape.stray
  rw [hcursor] at hlt hreals
  rw [hreports] at hadded
  exact ⟨run, .recovered hterminator (by rw [heval]; rfl) hset hreals hskips hadded, hI', hlt⟩

omit hitem in
theorem seriesStep_delimiter (item : Parser (Option β)) (ht : s.trail.next? c.tokens = some t)
    (hdelimiter : shape.delimiter = some t.kind) :
    SeriesStep shape item c s (.delimiter t)
        ((checkTrailing shape t).eval c (consume.eval c s).2).2 ∧
      I ((checkTrailing shape t).eval c (consume.eval c s).2).2 ∧
      s.cursor < ((checkTrailing shape t).eval c (consume.eval c s).2).2.cursor := by
  obtain ⟨-, hpassed⟩ := hkept.taken hs ht
  obtain ⟨hI, hcursor, hchecked⟩ := hkept.checks hpassed.kept shape t
  have hreals := hpassed.reals
  have hlt := hpassed.lt
  have hnext : ((checkTrailing shape t).eval c (consume.eval c s).2).2.trail.next? c.tokens =
      (consume.eval c s).2.trail.next? c.tokens :=
    congrArg (fun i => c.tokens[nextReal c.tokens i]?) hcursor
  rw [hpassed.reports, ← hnext] at hchecked
  rw [← hcursor] at hreals hlt
  exact ⟨.delimiter hdelimiter hreals hchecked, hI, hlt⟩

omit hitem hs in
theorem seriesTurned_afterItem {x : β} {run : List Token} {s₁ : ParseState}
    (hstep : SeriesStep shape item c s (.item x run) s₁) (hI : I s₁) (hlt : s.cursor < s₁.cursor)
    (b : Series β) :
    let turned := (afterItem shape (decide (s₁.cursor ≠ s.cursor))
      { b with items := b.items.push x }).eval c s₁
    SeriesTurned shape item c I b s turned.1 turned.2 := by
  dsimp only
  cases hdelimiter : shape.delimiter with
  | none =>
    have hmoved : decide (s₁.cursor ≠ s.cursor) = true := decide_eq_true (Nat.ne_of_gt hlt)
    simp only [afterItem, hdelimiter, hmoved, if_true, eval_pure]
    exact .item hdelimiter hstep hI hlt
  | some d =>
    simp only [afterItem, hdelimiter, eval_bind, eval_accept]
    by_cases hd : (s₁.trail.next? c.tokens).map Token.kind = some d
    · obtain ⟨u, hu, hud⟩ := Option.map_eq_some_iff.mp hd
      obtain ⟨hvalue, -⟩ := hkept.taken hI hu
      obtain ⟨hstep', hI', hlt'⟩ :=
        seriesStep_delimiter hkept hI item hu (hdelimiter.trans (congrArg some hud.symm))
      rw [if_pos hd, hvalue]
      exact .delimited hstep hstep' hI' (Nat.lt_trans hlt hlt')
    · have hnext : (looked c.tokens s₁).trail.next? c.tokens = s₁.trail.next? c.tokens := rfl
      rw [if_neg hd]
      simp only [eval_bind, eval_seriesEnd?, eval_pure, hnext]
      exact .last hstep hdelimiter hd rfl

theorem seriesTurned (shape : SeriesShape) (b : Series β) :
    SeriesTurned shape item c I b s ((seriesTurn shape item b).eval c s).1
      ((seriesTurn shape item b).eval c s).2 := by
  have hkind : (nextKind.eval c s).1 = (s.trail.next? c.tokens).map Token.kind := rfl
  cases ht : s.trail.next? c.tokens with
  | none =>
    rw [ht] at hkind
    rw [eval_seriesTurn_none hkind]
    exact .ended (by rw [ht]; rfl) rfl
  | some t =>
    rw [ht, Option.map_some] at hkind
    by_cases hterminator : shape.terminator = some t.kind
    · rw [eval_seriesTurn_terminator hkind hterminator]
      exact .ended (by rw [ht]; exact if_pos hterminator) rfl
    · have hgoes := SeriesShape.endAt?_of_ne ht hterminator
      have hdecides := hitem.decides (hkept.look hs)
      rw [eval_seriesTurn_item hkind hterminator]
      rcases heval : item.eval c (looked c.tokens s) with ⟨_ | x, s₁⟩
      · cases hset : shape.resumeSet? with
        | none =>
          have hresync : shape.resync = none := Option.map_eq_none_iff.mp hset
          rw [heval] at hdecides
          exact .aborted hgoes hresync hdecides
        | some set =>
          obtain ⟨run, hstep, hI, hlt⟩ :=
            seriesStep_recovered hkept hitem hs ht hterminator hset heval
          exact .recovered hstep hI hlt
      · obtain ⟨run, hstep, hI, hlt⟩ := seriesStep_item hkept hitem hs hgoes heval
        exact seriesTurned_afterItem hkept hstep hI hlt b

end

end Reparse
