import Reparse.Parser

/-!
# Running parsing steps

What each step does to a state, written out once, so that later proofs need not open the steps.
-/

namespace Reparse.Parser

variable {β γ σ : Type}

/-- The result of a parser and the state it leaves. -/
def eval (p : Parser β) (c : ParseContext) (s : ParseState) : β × ParseState := (p.run c).run s

@[simp] theorem eval_pure (b : β) (c : ParseContext) (s : ParseState) :
    (pure b : Parser β).eval c s = (b, s) := rfl

@[simp] theorem eval_bind (p : Parser β) (q : β → Parser γ) (c : ParseContext) (s : ParseState) :
    (p >>= q).eval c s = (q (p.eval c s).1).eval c (p.eval c s).2 := rfl

@[simp] theorem eval_map (f : β → γ) (p : Parser β) (c : ParseContext) (s : ParseState) :
    (f <$> p).eval c s = (f (p.eval c s).1, (p.eval c s).2) := rfl

@[simp] theorem eval_ite (q : Prop) [Decidable q] (p₁ p₂ : Parser β) (c : ParseContext)
    (s : ParseState) :
    (if q then p₁ else p₂).eval c s = if q then p₁.eval c s else p₂.eval c s := by
  split <;> rfl

@[simp] theorem eval_read (c : ParseContext) (s : ParseState) :
    (read : Parser ParseContext).eval c s = (c, s) := rfl

@[simp] theorem eval_get (c : ParseContext) (s : ParseState) :
    (get : Parser ParseState).eval c s = (s, s) := rfl

@[simp] theorem eval_modify (f : ParseState → ParseState) (c : ParseContext) (s : ParseState) :
    (modify f : Parser Unit).eval c s = ((), f s) := rfl

@[simp] theorem eval_modifyGet (f : ParseState → β × ParseState) (c : ParseContext)
    (s : ParseState) : (modifyGet f : Parser β).eval c s = f s := rfl

theorem le_realFrom (tokens : Array Token) (fuel i : Nat) : i ≤ realFrom tokens fuel i := by
  induction fuel generalizing i with
  | zero => exact Nat.le_refl i
  | succ fuel ih =>
    simp only [realFrom]
    split
    · split
      · exact Nat.le_trans (Nat.le_succ i) (ih (i + 1))
      · exact Nat.le_refl i
    · exact Nat.le_refl i

theorem realFrom_trivia {tokens : Array Token} {fuel i x : Nat} (hi : i ≤ x)
    (hx : x < realFrom tokens fuel i) : ∃ t, tokens[x]? = some t ∧ t.isTrivia = true := by
  induction fuel generalizing i with
  | zero => simp only [realFrom] at hx; omega
  | succ fuel ih =>
    simp only [realFrom] at hx
    split at hx
    next t ht =>
      split at hx
      next htr =>
        rcases Nat.eq_or_lt_of_le hi with rfl | hlt
        · exact ⟨t, ht, htr⟩
        · exact ih hlt hx
      next => omega
    next => omega

theorem realFrom_eq {tokens : Array Token} {fuel i r : Nat} (hir : i ≤ r) (hfuel : r ≤ i + fuel)
    (htrivia : ∀ x, i ≤ x → x < r → ∃ t, tokens[x]? = some t ∧ t.isTrivia = true)
    (hreal : ∀ t, tokens[r]? = some t → t.isTrivia = false) : realFrom tokens fuel i = r := by
  induction fuel generalizing i with
  | zero => simp only [realFrom]; omega
  | succ fuel ih =>
    rcases Nat.eq_or_lt_of_le hir with rfl | hlt
    · simp only [realFrom]
      split
      next t ht => simp [hreal t ht]
      next => rfl
    · obtain ⟨t, ht, htr⟩ := htrivia i (Nat.le_refl i) hlt
      simp only [realFrom, ht, htr, if_true]
      exact ih hlt (by omega) fun x hx => htrivia x (by omega)

def nextReal (tokens : Array Token) (cursor : Nat) : Nat :=
  realFrom tokens (tokens.size - cursor) cursor

theorem le_nextReal (tokens : Array Token) (cursor : Nat) : cursor ≤ nextReal tokens cursor :=
  le_realFrom ..

theorem nextReal_trivia {tokens : Array Token} {cursor x : Nat} (h : cursor ≤ x)
    (hx : x < nextReal tokens cursor) : ∃ t, tokens[x]? = some t ∧ t.isTrivia = true :=
  realFrom_trivia h hx

theorem nextReal_le_size {tokens : Array Token} {cursor : Nat} (h : cursor ≤ tokens.size) :
    nextReal tokens cursor ≤ tokens.size := by
  refine Nat.le_of_not_lt fun hlt => ?_
  obtain ⟨t, ht, -⟩ := nextReal_trivia h hlt
  simp at ht

theorem nextReal_real {tokens : Array Token} {cursor : Nat} {t : Token}
    (ht : tokens[nextReal tokens cursor]? = some t) : t.isTrivia = false := by
  have key : ∀ fuel i, tokens.size ≤ i + fuel → tokens[realFrom tokens fuel i]? = some t →
      t.isTrivia = false := by
    intro fuel
    induction fuel with
    | zero =>
      intro i hi hs
      have : i < tokens.size := (Array.getElem?_eq_some_iff.mp hs).1
      omega
    | succ fuel ih =>
      intro i hi hs
      simp only [realFrom] at hs
      split at hs
      next u hu =>
        split at hs
        next => exact ih (i + 1) (by omega) hs
        next htr =>
          rw [hu] at hs
          cases hs
          simpa using htr
      next hn =>
        rw [hn] at hs
        cases hs
  exact key _ _ (by omega) ht

def reals (tokens : Array Token) (i : Nat) : List Token :=
  (tokens.toList.drop i).filter fun t => !t.isTrivia

section Reals

variable {tokens : Array Token} {i : Nat} {t : Token}

theorem reals_none (h : tokens[i]? = none) : reals tokens i = [] := by
  have hle : tokens.toList.length ≤ i := Array.getElem?_eq_none_iff.mp h
  rw [reals, List.drop_of_length_le hle]
  rfl

theorem reals_some (h : tokens[i]? = some t) :
    reals tokens i = [t].filter (fun t => !t.isTrivia) ++ reals tokens (i + 1) := by
  obtain ⟨hlt, rfl⟩ := Array.getElem?_eq_some_iff.mp h
  have hdrop := List.drop_eq_getElem_cons (l := tokens.toList) hlt
  rw [reals, hdrop, Array.getElem_toList, ← List.singleton_append, List.filter_append]
  rfl

theorem reals_trivia (h : tokens[i]? = some t) (ht : t.isTrivia = true) :
    reals tokens i = reals tokens (i + 1) := by
  rw [reals_some h]
  simp [ht]

theorem reals_real (h : tokens[i]? = some t) (ht : t.isTrivia = false) :
    reals tokens i = t :: reals tokens (i + 1) := by
  rw [reals_some h]
  simp [ht]

theorem reals_nextReal (tokens : Array Token) (i : Nat) :
    reals tokens (nextReal tokens i) = reals tokens i := by
  have key : ∀ fuel i, reals tokens (realFrom tokens fuel i) = reals tokens i := by
    intro fuel
    induction fuel with
    | zero => exact fun _ => rfl
    | succ fuel ih =>
      intro i
      simp only [realFrom]
      split
      next t ht =>
        split
        next htr => rw [ih, reals_trivia ht htr]
        next => rfl
      next => rfl
  exact key _ _

theorem reals_of_next (h : tokens[nextReal tokens i]? = some t) :
    reals tokens i = t :: reals tokens (nextReal tokens i + 1) := by
  rw [← reals_nextReal, reals_real h (nextReal_real h)]

theorem reals_of_next_none (h : tokens[nextReal tokens i]? = none) : reals tokens i = [] := by
  rw [← reals_nextReal, reals_none h]

end Reals

def looked (tokens : Array Token) (s : ParseState) : ParseState :=
  { s with
    read := max s.read (min (nextReal tokens s.cursor + 1) tokens.size)
    reach := max s.reach (nextReal tokens s.cursor) }

@[simp] theorem looked_cursor (tokens : Array Token) (s : ParseState) :
    (looked tokens s).cursor = s.cursor := rfl

theorem looked_looked (tokens : Array Token) (s : ParseState) :
    looked tokens (looked tokens s) = looked tokens s := by
  simp [looked]

theorem eval_nextIndex (c : ParseContext) (s : ParseState) :
    nextIndex.eval c s = (nextReal c.tokens s.cursor, looked c.tokens s) := rfl

theorem eval_nextToken (c : ParseContext) (s : ParseState) :
    nextToken.eval c s =
      (c.tokens[nextReal c.tokens s.cursor]?, looked c.tokens s) := rfl

theorem eval_isNext (k : Kind) (c : ParseContext) (s : ParseState) :
    (isNext k).eval c s =
      (decide ((c.tokens[nextReal c.tokens s.cursor]?).map Token.kind = some k),
        looked c.tokens s) := rfl

def past (t : Token) (s : ParseState) : ParseState :=
  { s with
    reach := max s.reach s.cursor
    cursor := s.cursor + 1
    comments := if t.kind = .comment then s.comments ++ [t] else s.comments
    memo := (s.memo.evict t.id).2
    counts := { s.counts with evicted := s.counts.evicted + (s.memo.evict t.id).1 } }

theorem eval_consumeRaw (t : Token) (c : ParseContext) (s : ParseState) :
    (consumeRaw t).eval c s = ((), past t s) := rfl

theorem eval_consumeMany_succ (n : Nat) {c : ParseContext} {s : ParseState} {t : Token}
    (ht : c.tokens[s.cursor]? = some t) :
    (consumeMany (n + 1)).eval c s = (consumeMany n).eval c (past t s) := by
  simp [consumeMany, ht, eval_consumeRaw]

theorem eval_consume (c : ParseContext) (s : ParseState) :
    consume.eval c s =
      match c.tokens[nextReal c.tokens s.cursor]? with
      | none => (none, looked c.tokens s)
      | some t => (some t, ((consumeMany (nextReal c.tokens s.cursor + 1 - s.cursor)).eval c
          (looked c.tokens s)).2) := by
  simp only [consume, eval_bind, eval_nextIndex, eval_read]
  cases c.tokens[nextReal c.tokens s.cursor]? <;> rfl

theorem eval_consumeTrivia (c : ParseContext) (s : ParseState) :
    consumeTrivia.eval c s =
      (consumeMany (nextReal c.tokens s.cursor - s.cursor)).eval c (looked c.tokens s) := rfl

theorem eval_lastConsumed (c : ParseContext) (s : ParseState) :
    lastConsumed.eval c s =
      (if 0 < s.cursor && s.cursor ≤ s.read then c.tokens[s.cursor - 1]? else none, s) := by
  rw [lastConsumed, eval_bind, eval_get, eval_ite]
  split <;> rfl

theorem eval_report (anchor : Option Anchor) (code : Code) (args : List Text) (c : ParseContext)
    (s : ParseState) : (report anchor code args).eval c s =
      ((), { s with reports := s.reports.push ⟨code, args, anchor⟩ }) := rfl

def nextAnchor (tokens : Array Token) (cursor : Nat) : Option Anchor :=
  match tokens[nextReal tokens cursor]? with
  | some t => some (.token t)
  | none => tokens.back?.map .behind

theorem eval_reportNext (code : Code) (args : List Text) (c : ParseContext) (s : ParseState) :
    (reportNext code args).eval c s =
      ((), { looked c.tokens s with
        reports := s.reports.push ⟨code, args, nextAnchor c.tokens s.cursor⟩ }) := by
  simp only [reportNext, eval_bind, eval_nextToken, nextAnchor]
  cases c.tokens[nextReal c.tokens s.cursor]? <;> rfl

theorem eval_tentatively (p : Parser β) (c : ParseContext) (s : ParseState) :
    (tentatively p).eval c s =
      ((p.eval c { s with comments := [] }).1,
        { (p.eval c { s with comments := [] }).2 with
          cursor := s.cursor, comments := s.comments, reports := s.reports }) := rfl

theorem eval_watched (p : Parser β) (c : ParseContext) (s : ParseState) :
    (watched p).eval c s =
      (((p.eval c s).1, decide ((p.eval c s).2.cursor ≠ s.cursor)), (p.eval c s).2) := rfl

@[simp] theorem eval_flags (c : ParseContext) (s : ParseState) : flags.eval c s = (c.flags, s) :=
  rfl

theorem eval_loop (turn : σ → Parser (Turn σ)) (b : σ) (c : ParseContext) (s : ParseState) :
    (loop turn b).eval c s = (iterate turn (c.tokens.size - s.cursor + 1) b).eval c s := rfl

end Reparse.Parser
