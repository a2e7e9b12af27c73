import Reparse.Proofs.Parser.TwinSteps

/-!
# Twin loops and series

A loop has fuel for all the tokens that are left. Every turn but the last consumes one, so the fuel
never shows, and loops with like turns are alike though more tokens follow in one of the runs.
-/

namespace Reparse

open Reparse.Parser

variable {w : Window} {next : TokenId} {E : TokenId → Entry → Prop}
  {pre₁ pre₂ s₁ s₂ : ParseState} {m : Nat}
  {β σ : Type} [Renumber β] {p₁ p₂ : Parser β} {P : Nat → Prop} {Q : β → Nat → Prop}

theorem Alike.tentatively (hp : Alike w P p₁ p₂ Q) :
    Alike w P (tentatively p₁) (tentatively p₂) fun _ => P where
  onward c s := by
    rw [eval_tentatively]
    exact ⟨Nat.le_refl _, (hp.onward c { s with comments := [] }).2⟩
  twin := by
    intro next E pre₁ pre₂ s₁ s₂ flags hE ht hi hP ha
    rw [eval_tentatively] at ha ⊢
    rw [eval_tentatively]
    have hon := hp.onward (.bare w.left flags) { s₁ with comments := [] }
    have hr := hp.twin flags hE ht.clear hi hP ha
    have hreach := ht.left_reach
    have hcursor := ht.cursor
    have hend := hr.twins.cursor
    have hread := hr.twins.right_cursor
    simp only at hon
    refine ⟨hr.value, ?_, hP⟩
    exact { hr.twins with
      cursor := hcursor
      comments := ht.comments
      reports := ht.reports
      left_cursor := ht.left_cursor
      left_reach := by simp only; omega
      right_cursor := by simp only; omega }

theorem Alike.underFlags (add remove : Flags) (hp : Alike w P p₁ p₂ Q) :
    Alike w P (underFlags add remove p₁) (underFlags add remove p₂) Q where
  onward _ s := hp.onward _ s
  twin flags hE ht hi hP ha := hp.twin (flags.adjust add remove) hE ht hi hP ha

theorem Alike.inBrackets (hp : Alike w P p₁ p₂ Q) :
    Alike w P (inBrackets p₁) (inBrackets p₂) Q :=
  hp.underFlags {} { noObject := true }

theorem Alike.watched (hp : Alike w P p₁ p₂ Q) :
    Alike w P (watched p₁) (watched p₂) fun r c =>
      ∃ b, P b ∧ b ≤ c ∧ (r.2 = true → b < c) where
  onward := hp.onward
  twin := by
    intro next E pre₁ pre₂ s₁ s₂ flags hE ht hi hP ha
    rw [eval_watched] at ha ⊢
    rw [eval_watched]
    have hr := hp.twin flags hE ht hi hP ha
    have hon := (hp.onward (.bare w.left flags) s₁).1
    have hcursor := ht.cursor
    have hend := hr.twins.cursor
    refine ⟨?_, hr.twins, s₁.cursor, hP, hon, ?_⟩
    · have hiff : (p₂.eval ⟨w.right, next, flags⟩ s₂).2.cursor ≠ s₂.cursor ↔
          (p₁.eval (.bare w.left flags) s₁).2.cursor ≠ s₁.cursor := by
        constructor <;> omega
      simp only [Renumber.renumber_pair, hr.value, Renumber.renumber_bool, hiff]
    · simp only [decide_eq_true_eq]
      omega

def turnState : Turn σ → σ
  | .again b => b
  | .done b => b

def turnPlace (w : Window) (m : Nat) : Turn σ → Nat → Prop
  | .again _ => From w (m + 1)
  | .done _ => From w m

theorem Onward.iterate {turn : σ → Parser (Turn σ)} (h : ∀ b, Onward (turn b)) (n : Nat) (b : σ) :
    Onward (iterate turn n b) := by
  induction n generalizing b with
  | zero => exact .pure b
  | succ n ih =>
    refine (h b).bind fun t => ?_
    cases t with
    | again b' => exact ih b'
    | done b' => exact .pure b'

theorem Onward.loop {turn : σ → Parser (Turn σ)} (h : ∀ b, Onward (turn b)) (b : σ) :
    Onward (loop turn b) := by
  intro c s
  rw [eval_loop]
  exact Onward.iterate h _ b c s

def resume (turn : σ → Parser (Turn σ)) (n : Nat) : Turn σ → Parser σ
  | .again b => iterate turn n b
  | .done b => Pure.pure b

theorem iterate_succ (turn : σ → Parser (Turn σ)) (n : Nat) (b : σ) :
    iterate turn (n + 1) b = turn b >>= resume turn n := rfl

theorem twin_iterate [Renumber σ] {turn₁ turn₂ : σ → Parser (Turn σ)} {I : σ → Nat → Prop}
    {flags : Flags} (n₁ n₂ : Nat)
    (h : ∀ x ≥ m, ∀ b, Alike w (fun c => From w x c ∧ I b c) (turn₁ b)
      (turn₂ (renumber w.number b)) fun t c => turnPlace w x t c ∧ I (turnState t) c) (b : σ)
    (hE : Trusted E w.right next) (ht : Twins w next E pre₁ pre₂ s₁ s₂) (hm : From w m s₁.cursor)
    (hI : I b s₁.cursor)
    (h₁ : w.left.size < s₁.cursor + n₁) (h₂ : w.right.size < s₂.cursor + n₂)
    (ha : w.Agrees ((iterate turn₁ n₁ b).eval (.bare w.left flags) s₁).2.reach) :
    Matches w next E pre₁ pre₂ (fun b c => From w m c ∧ I b c)
      ((iterate turn₁ n₁ b).eval (.bare w.left flags) s₁)
      ((iterate turn₂ n₂ (renumber w.number b)).eval ⟨w.right, next, flags⟩ s₂) := by
  -- By induction on the fuel of the left side. The fuel of the right side need not be the same.
  induction n₁ generalizing b n₂ s₁ s₂ with
  | zero =>
    have hleft := ht.left_cursor
    omega
  | succ n₁ ih =>
    cases n₂ with
    | zero =>
      have hright := Nat.le_trans ht.right_cursor ht.right_read
      omega
    | succ n₂ =>
      simp only [From] at hm
      obtain ⟨x, hx⟩ : ∃ x, w.i + x = s₁.cursor := ⟨s₁.cursor - w.i, by omega⟩
      have hxm : m ≤ x := by omega
      have hon : ∀ t, Onward (resume turn₁ n₁ t) := by
        intro t
        cases t with
        | again b' => exact Onward.iterate (fun b => (h m (Nat.le_refl m) b).onward) n₁ b'
        | done b' => exact .pure b'
      rw [iterate_succ, eval_bind] at ha ⊢
      rw [iterate_succ, eval_bind]
      have hr := (h x hxm b).twin flags hE ht (by omega) ⟨Nat.le_of_eq hx, hI⟩
        (ha.mono (hon _ _ _).2)
      have hplace := hr.place
      have hcursor := ht.cursor
      have hend := hr.twins.cursor
      rw [hr.value]
      cases hv : ((turn₁ b).eval (.bare w.left flags) s₁).1 with
      | again b' =>
        rw [hv] at ha hplace
        simp only [turnPlace, From] at hplace
        exact ih n₂ b' hr.twins (by simp only [From]; omega) hplace.2 (by omega) (by omega) ha
      | done b' =>
        rw [hv] at hplace
        exact ⟨rfl, hr.twins, hplace.1.mono hxm, hplace.2⟩

theorem alike_loop_keeps [Renumber σ] {turn₁ turn₂ : σ → Parser (Turn σ)} {I : σ → Nat → Prop}
    (h : ∀ x ≥ m, ∀ b, Alike w (fun c => From w x c ∧ I b c) (turn₁ b)
      (turn₂ (renumber w.number b)) fun t c => turnPlace w x t c ∧ I (turnState t) c) {b b' : σ}
    (hb : b' = renumber w.number b) :
    Alike w (fun c => From w m c ∧ I b c) (loop turn₁ b) (loop turn₂ b')
      fun b c => From w m c ∧ I b c where
  onward := .loop (fun b => (h m (Nat.le_refl m) b).onward) b
  twin := by
    intro next E pre₁ pre₂ s₁ s₂ flags hE ht hi hP ha
    rw [eval_loop] at ha ⊢
    rw [eval_loop, hb]
    refine twin_iterate _ _ h b hE ht hP.1 hP.2 ?_ ?_ ha
    · simp only [ParseContext.bare_tokens]
      omega
    · simp only
      omega

theorem alike_loop [Renumber σ] {turn₁ turn₂ : σ → Parser (Turn σ)}
    (h : ∀ x ≥ m, ∀ b,
      Alike w (From w x) (turn₁ b) (turn₂ (renumber w.number b)) (turnPlace w x)) {b b' : σ}
    (hb : b' = renumber w.number b) : AlikeStep w m (loop turn₁ b) (loop turn₂ b') := by
  refine (alike_loop_keeps (I := fun _ _ => True) (fun x hx b => ?_) hb).weaken
    (fun _ hc => ⟨hc, trivial⟩) fun _ _ hc => hc.1
  exact (h x hx b).weaken (fun _ hc => hc.1) fun _ _ hc => ⟨hc, trivial⟩

theorem lt_of_nextReal {tokens : Array Token} {i j : Nat} {t : Token} (hij : i ≤ j)
    (ht : tokens[nextReal tokens i]? = some t) (hj : tokens[nextReal tokens j]? = none) :
    i < j := by
  refine Nat.lt_of_le_of_ne hij fun heq => ?_
  rw [← heq, ht] at hj
  cases hj

theorem alike_skipTo (set : KindSet) : AlikeStep w m (skipTo set) (skipTo set) := by
  refine alike_loop (fun x _ _ => alike_next_kind ?_ fun kind => ?_) rfl
  · exact .pure rfl fun _ hc => hc
  · by_cases hset : set.contains kind = true
    · simp only [hset, if_true]
      exact .pure rfl fun c hc => hc.1
    · simp only [hset]
      exact .taken fun _ => .pure rfl fun _ hc => hc

theorem Alike.upward (h : AlikeStep w 0 p₁ p₂) (hP : ∀ b c, P b → b ≤ c → P c) :
    Alike w P p₁ p₂ fun _ => P where
  onward := h.onward
  twin flags hE ht hi hs ha :=
    have hr := h.twin flags hE ht hi hi ha
    ⟨hr.value, hr.twins, hP _ _ hs (h.onward _ _).1⟩

theorem alike_skipStray (set : KindSet) (code : Code) :
    Alike w P (skipStray set code) (skipStray set code) fun _ c =>
      ∃ b, P b ∧ b ≤ c ∧ (w.left[nextReal w.left b]? ≠ none → b < c) := by
  refine alike_consume.bind fun t? => ?_
  cases t? with
  | none => exact .pure rfl fun c ⟨b, hb, hn, hc⟩ => ⟨b, hb, hc, fun h => absurd hn h⟩
  | some t =>
    refine Alike.weaken (P := fun c => ∃ b, P b ∧ b < c) (Q := fun _ c => ∃ b, P b ∧ b < c) ?_
      (fun c ⟨b, hb, _, hc⟩ => ⟨b, hb, hc⟩) fun _ c ⟨b, hb, hc⟩ => ⟨b, hb, Nat.le_of_lt hc, fun _ => hc⟩
    have hup : ∀ c c', (∃ b, P b ∧ b < c) → c ≤ c' → ∃ b, P b ∧ b < c' :=
      fun c c' ⟨b, hb, hc⟩ hle => ⟨b, hb, Nat.lt_of_lt_of_le hc hle⟩
    refine (alike_reportStray t code).bind fun _ => ?_
    refine ((alike_skipTo set).upward hup).bind fun found => ?_
    cases found with
    | false => exact .pure rfl fun _ hc => hc
    | true =>
      exact ((alike_accept .semicolon).step.upward hup).bind fun _ => .pure rfl fun _ hc => hc

theorem alike_seriesEnd? (shape : SeriesShape) :
    Alike w P (seriesEnd? shape) (seriesEnd? shape) fun stop? c =>
      P c ∧ (stop? = none → w.left[nextReal w.left c]? ≠ none) := by
  refine alike_nextKind.bind fun k? => ?_
  cases k? with
  | none =>
    exact .pure rfl fun c hc => ⟨hc.1, fun h => by simp at h⟩
  | some kind =>
    refine .pure ?_ fun c hc => ⟨hc.1, fun _ hn => ?_⟩
    · rw [Renumber.renumber_kind]
      split <;> rfl
    · rw [hn] at hc
      exact absurd hc.2 (by simp)

theorem alike_checkTrailing (shape : SeriesShape) (t : Token) :
    Alike w P (checkTrailing shape t) (checkTrailing shape (renumber w.number t)) fun _ => P := by
  unfold checkTrailing
  split
  · refine (alike_isNext _).bind fun b => ?_
    cases b with
    | true => exact (alike_reportStray t _).weaken (fun c hc => hc.1) fun _ _ hc => hc
    | false => exact .pure rfl fun c hc => hc.1
  · exact .pure rfl fun _ hc => hc

theorem alike_afterItem (shape : SeriesShape) (moved : Bool) (s : Series β) :
    Alike w (fun c => From w m c ∧ (moved = true → From w (m + 1) c)) (afterItem shape moved s)
      (afterItem shape moved (renumber w.number s)) (turnPlace w m) := by
  unfold afterItem
  split
  · cases moved with
    | true => exact .pure rfl fun c hc => hc.2 rfl
    | false => exact .pure rfl fun c hc => hc.1
  · refine ((alike_accept _).weaken (fun c hc => hc.1) fun _ _ hc => hc).bind fun t? => ?_
    cases t? with
    | some t => exact (alike_checkTrailing shape t).bind fun _ => .pure rfl fun _ hc => hc
    | none =>
      refine (alike_seriesEnd? shape).bind fun stop? => .pure ?_ fun c hc => hc.1
      cases stop? <;> rfl

variable {item₁ item₂ : Parser (Option β)}

theorem alike_seriesTurn (shape : SeriesShape) (s : Series β)
    (hitem : AlikeRule w m item₁ item₂) :
    Alike w (From w m) (seriesTurn shape item₁ s) (seriesTurn shape item₂ (renumber w.number s))
      (turnPlace w m) := by
  refine (alike_seriesEnd? shape).bind fun stop? => ?_
  cases stop? with
  | some stop => exact .pure rfl fun c hc => hc.1
  | none =>
    refine ((hitem.weaken (fun c hc => hc.1) fun _ _ hc => hc).watched).bind fun r => ?_
    rcases r with ⟨_ | value, moved⟩
    · dsimp only [renumber, Option.map_none]
      cases shape.resumeSet? with
      | none =>
        refine .pure rfl fun c ⟨b, hb, hc, _⟩ => ?_
        exact Nat.le_trans hb.1 hc
      | some set =>
        refine (alike_skipStray set shape.stray).bind fun _ => .pure rfl ?_
        rintro c ⟨d, ⟨b, ⟨hb, hnext⟩, hbd, -⟩, hdc, hskip⟩
        simp only [turnPlace, From] at hb ⊢
        obtain ⟨t, ht⟩ := Option.ne_none_iff_exists'.mp (hnext rfl)
        cases hd : w.left[nextReal w.left d]? with
        | none =>
          have hlt := lt_of_nextReal hbd ht hd
          omega
        | some u =>
          have hlt := hskip (by simp [hd])
          omega
    · show Alike w _ (afterItem shape moved { s with items := s.items.push value })
        (afterItem shape moved { renumber w.number s with
          items := (renumber w.number s).items.push (renumber w.number value) }) _
      rw [Renumber.series_push]
      refine (alike_afterItem shape moved _).weaken ?_ fun _ _ hc => hc
      rintro c ⟨b, ⟨hb, -⟩, hbc, hmoved⟩
      simp only [From] at hb ⊢
      exact ⟨by omega, fun h => by have := hmoved h; omega⟩

theorem alike_series (shape : SeriesShape) (hitem : ∀ x ≥ m, AlikeRule w x item₁ item₂) :
    AlikeStep w m (series shape item₁) (series shape item₂) :=
  alike_loop (fun x hx s => alike_seriesTurn shape s (hitem x hx)) (Renumber.series_empty _).symm

theorem alike_items (shape : SeriesShape) (hitem : ∀ x ≥ m, AlikeRule w x item₁ item₂) :
    AlikeStep w m (items shape item₁) (items shape item₂) :=
  (alike_series shape hitem).bind fun s =>
    .pure (Renumber.toList_renumber w.number s.items) fun _ hc => hc

end Reparse
