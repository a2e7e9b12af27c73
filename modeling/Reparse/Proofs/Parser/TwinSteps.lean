import Reparse.Proofs.Parser.Twins

/-!
# Twin steps

Each parsing step makes twin runs with itself, and what is put together from such steps does so as
well. Loops have fuel for all the tokens that are left; as every turn but the last consumes one, the
fuel does not show.
-/

namespace Reparse

open Reparse.Parser

variable {w : Window} {next : TokenId} {E : TokenId → Entry → Prop}
  {pre₁ pre₂ s₁ s₂ : ParseState} {m r : Nat}

namespace Twins

theorem nextReal_eq (ht : Twins w next E pre₁ pre₂ s₁ s₂) (ha : w.Agrees r) (hi : w.i ≤ s₁.cursor)
    (hr : nextReal w.left s₁.cursor ≤ r) :
    nextReal w.left s₁.cursor + w.j = nextReal w.right s₂.cursor + w.i := by
  have hc := ht.cursor
  have hle := le_nextReal w.left s₁.cursor
  have hright : s₂.cursor ≤ w.right.size := Nat.le_trans ht.right_cursor ht.right_read
  obtain ⟨y, hy⟩ : ∃ y, nextReal w.left s₁.cursor + w.j = y + w.i :=
    ⟨nextReal w.left s₁.cursor + w.j - w.i, by omega⟩
  have htrivia : ∀ x, s₂.cursor ≤ x → x < y → ∃ t, w.right[x]? = some t ∧ t.isTrivia = true := by
    intro x hx hxy
    have hlt : x + w.i - w.j < nextReal w.left s₁.cursor := by omega
    obtain ⟨t, ht, htr⟩ := nextReal_trivia (by omega) hlt
    have hs : w.right[x]? = renumber w.number w.left[x + w.i - w.j]? :=
      ha.slot (by omega) (by omega) (by omega)
    rw [ht] at hs
    exact ⟨_, hs, htr⟩
  have hreal : ∀ t, w.right[y]? = some t → t.isTrivia = false := by
    intro t hyt
    have hs := ha.slot hy (by omega) hr
    rw [hyt] at hs
    cases hl : w.left[nextReal w.left s₁.cursor]? with
    | none => simp [hl] at hs
    | some u =>
      rw [hl, Renumber.renumber_some, Option.some.injEq] at hs
      rw [hs, Renumber.token_isTrivia]
      exact nextReal_real hl
  have hsize : y ≤ w.right.size := by
    refine Nat.le_of_not_lt fun hlt => ?_
    obtain ⟨t, ht, -⟩ := htrivia w.right.size hright hlt
    simp at ht
  have hfound : nextReal w.right s₂.cursor = y := realFrom_eq (by omega) (by omega) htrivia hreal
  omega

theorem next_eq (ht : Twins w next E pre₁ pre₂ s₁ s₂) (ha : w.Agrees r) (hi : w.i ≤ s₁.cursor)
    (hr : nextReal w.left s₁.cursor ≤ r) :
    w.right[nextReal w.right s₂.cursor]? =
      renumber w.number w.left[nextReal w.left s₁.cursor]? := by
  have hle := le_nextReal w.left s₁.cursor
  exact ha.slot (ht.nextReal_eq ha hi hr) (by omega) hr

theorem nextAnchor_eq (ht : Twins w next E pre₁ pre₂ s₁ s₂) (ha : w.Agrees r)
    (hi : w.i ≤ s₁.cursor) (hr : nextReal w.left s₁.cursor ≤ r) :
    nextAnchor w.right s₂.cursor = renumber w.number (nextAnchor w.left s₁.cursor) := by
  simp only [nextAnchor, ht.next_eq ha hi hr]
  cases hl : w.left[nextReal w.left s₁.cursor]? with
  | some t => rfl
  | none =>
    have hsize : w.left.size ≤ nextReal w.left s₁.cursor := Array.getElem?_eq_none_iff.mp hl
    simp only [Renumber.renumber_none, ha.last (Nat.le_trans hsize hr)]
    cases w.left.back? <;> rfl

theorem looked (ht : Twins w next E pre₁ pre₂ s₁ s₂) (ha : w.Agrees r) (hi : w.i ≤ s₁.cursor)
    (hr : nextReal w.left s₁.cursor ≤ r) :
    Twins w next E pre₁ pre₂ (looked w.left s₁) (Parser.looked w.right s₂) where
  cursor := ht.cursor
  reach := by
    have hn := ht.nextReal_eq ha hi hr
    have h := ht.reach
    simp only [Parser.looked]
    omega
  comments := ht.comments
  reports := ht.reports
  left_read := by
    have h := ht.left_read
    simp only [Parser.looked]
    omega
  left_cursor := ht.left_cursor
  left_reach := by
    have h := ht.left_reach
    simp only [Parser.looked]
    omega
  left_memo := ht.left_memo
  right_cursor := by
    have h := ht.right_cursor
    simp only [Parser.looked]
    omega
  right_read := by
    have h := ht.right_read
    simp only [Parser.looked]
    omega
  right_since := Nat.le_trans ht.right_since (Nat.le_max_left ..)
  right_seen := by
    have h := ht.right_seen
    have hsize := nextReal_le_size (Nat.le_trans ht.right_cursor ht.right_read)
    simp only [Parser.looked]
    omega
  right_fresh := ht.right_fresh.mono (Nat.le_max_left ..)
  right_next := by
    have h := ht.right_read
    refine ht.right_next.imp_left fun hs => ?_
    simp only [Parser.looked]
    omega
  right_memo := ht.right_memo

theorem past {t : Token} (ht : Twins w next E pre₁ pre₂ s₁ s₂) (hl : w.left[s₁.cursor]? = some t)
    (hr : s₂.cursor < s₂.read) :
    Twins w next E pre₁ pre₂ (past t s₁) (past (renumber w.number t) s₂) where
  cursor := by
    have h := ht.cursor
    simp only [Parser.past]
    omega
  reach := by
    have h := ht.cursor
    have hr := ht.reach
    simp only [Parser.past]
    omega
  comments := by
    simp only [Parser.past, Renumber.token_kind, ht.comments]
    split
    · simp
    · rfl
  reports := ht.reports
  left_read := ht.left_read
  left_cursor := by
    have hlt : s₁.cursor < w.left.size := (Array.getElem?_eq_some_iff.mp hl).1
    simp only [Parser.past]
    omega
  left_reach := by
    simp only [Parser.past]
    omega
  left_memo := ht.left_memo.evict t.id
  right_cursor := hr
  right_read := ht.right_read
  right_since := ht.right_since
  right_seen := by
    have h := ht.right_seen
    simp only [Parser.past]
    omega
  right_fresh := ht.right_fresh
  right_next := ht.right_next
  right_memo := ht.right_memo.evict _

theorem consumeMany (k : Nat) (c₁ c₂ : ParseContext) (ht : Twins w next E pre₁ pre₂ s₁ s₂)
    (h₁ : c₁.tokens = w.left) (h₂ : c₂.tokens = w.right) (ha : w.Agrees r) (hi : w.i ≤ s₁.cursor)
    (hk : s₁.cursor + k ≤ w.left.size) (hr : s₁.cursor + k ≤ r + 1)
    (hread : s₂.cursor + k ≤ s₂.read) :
    Twins w next E pre₁ pre₂ ((consumeMany k).eval c₁ s₁).2
        ((Parser.consumeMany k).eval c₂ s₂).2 ∧
      ((Parser.consumeMany k).eval c₁ s₁).2.cursor = s₁.cursor + k := by
  induction k generalizing s₁ s₂ with
  | zero => exact ⟨ht, rfl⟩
  | succ k ih =>
    have hl : w.left[s₁.cursor]? = some w.left[s₁.cursor] :=
      Array.getElem?_eq_getElem (by omega)
    have hs := ha.slot ht.cursor hi (by omega)
    rw [hl, Renumber.renumber_some] at hs
    rw [eval_consumeMany_succ k (by rw [h₁, hl]), eval_consumeMany_succ k (by rw [h₂, hs])]
    obtain ⟨htwins, hcursor⟩ := ih (ht.past hl (by omega)) (by simp only [Parser.past]; omega)
      (by simp only [Parser.past]; omega) (by simp only [Parser.past]; omega)
      (by simp only [Parser.past]; omega)
    refine ⟨htwins, ?_⟩
    rw [hcursor]
    simp only [Parser.past]
    omega

theorem clear (ht : Twins w next E pre₁ pre₂ s₁ s₂) :
    Twins w next E pre₁ pre₂ { s₁ with comments := [] } { s₂ with comments := [] } :=
  { ht with comments := rfl }

theorem push (ht : Twins w next E pre₁ pre₂ s₁ s₂) (x : Report Anchor) :
    Twins w next E pre₁ pre₂ { s₁ with reports := s₁.reports.push x }
      { s₂ with reports := s₂.reports.push (renumber w.number x) } := by
  obtain ⟨new, h₁, h₂⟩ := ht.reports
  refine { ht with reports := ⟨new.push x, ?_, ?_⟩ }
  · simp only [h₁, Array.append_push]
  · simp only [h₂, Renumber.renumber_push, Array.append_push]

end Twins

theorem Onward.consumeMany (k : Nat) : Onward (Parser.consumeMany k) := by
  induction k with
  | zero => exact .pure ()
  | succ k ih =>
    intro c s
    cases ht : c.tokens[s.cursor]? with
    | none => simp [Parser.consumeMany, ht]
    | some t =>
      rw [eval_consumeMany_succ k ht]
      have h := ih c (Parser.past t s)
      simp only [Parser.past] at h ⊢
      omega

theorem Onward.looked {β : Type} {p : Parser β} (h : Onward p) (c : ParseContext)
    (s : ParseState) :
    s.cursor ≤ (p.eval c (looked c.tokens s)).2.cursor ∧
      s.reach ≤ (p.eval c (Parser.looked c.tokens s)).2.reach ∧
      nextReal c.tokens s.cursor ≤ (p.eval c (Parser.looked c.tokens s)).2.reach := by
  have hp := h c (Parser.looked c.tokens s)
  have h₁ : (Parser.looked c.tokens s).cursor = s.cursor := rfl
  have h₂ : (Parser.looked c.tokens s).reach = max s.reach (nextReal c.tokens s.cursor) := rfl
  omega

theorem Onward.consume : Onward Parser.consume := by
  intro c s
  rw [eval_consume]
  cases c.tokens[nextReal c.tokens s.cursor]? with
  | none => exact ⟨Nat.le_refl _, Nat.le_max_left ..⟩
  | some t =>
    obtain ⟨hcursor, hreach, -⟩ :=
      (Onward.consumeMany (nextReal c.tokens s.cursor + 1 - s.cursor)).looked c s
    exact ⟨hcursor, hreach⟩

theorem Onward.consumeTrivia : Onward Parser.consumeTrivia := by
  intro c s
  obtain ⟨hcursor, hreach, -⟩ :=
    (Onward.consumeMany (nextReal c.tokens s.cursor - s.cursor)).looked c s
  exact ⟨hcursor, hreach⟩

variable {P : Nat → Prop}

theorem alike_nextToken :
    Alike w P nextToken nextToken fun t? c => P c ∧ w.left[nextReal w.left c]? = t? where
  onward _ _ := ⟨Nat.le_refl _, Nat.le_max_left ..⟩
  twin := by
    intro next E pre₁ pre₂ s₁ s₂ flags hE ht hi hP ha
    have hr : nextReal w.left s₁.cursor ≤ (looked w.left s₁).reach := Nat.le_max_right ..
    exact ⟨ht.next_eq ha hi hr, ht.looked ha hi hr, hP, rfl⟩

theorem alike_nextKind :
    Alike w P nextKind nextKind fun k? c =>
      P c ∧ (w.left[nextReal w.left c]?).map Token.kind = k? := by
  refine alike_nextToken.bind fun t? => .pure ?_ fun c hc => ⟨hc.1, by rw [hc.2]⟩
  cases t? <;> rfl

theorem alike_isNext (k : Kind) :
    Alike w P (isNext k) (isNext k) fun b c =>
      P c ∧ decide ((w.left[nextReal w.left c]?).map Token.kind = some k) = b := by
  refine alike_nextKind.bind fun k? => .pure ?_ fun c hc => ⟨hc.1, by rw [hc.2]⟩
  cases k? <;> rfl

theorem alike_consume :
    Alike w P consume consume fun t? c => ∃ b, P b ∧ w.left[nextReal w.left b]? = t? ∧
      b + t?.isSome.toNat ≤ c where
  onward := .consume
  twin := by
    intro next E pre₁ pre₂ s₁ s₂ flags hE ht hi hP ha
    have hle := le_nextReal w.left s₁.cursor
    have hcursor := ht.cursor
    rw [eval_consume] at ha ⊢
    rw [eval_consume]
    simp only [ParseContext.bare_tokens] at ha ⊢
    cases hl : w.left[nextReal w.left s₁.cursor]? with
    | none =>
      simp only [hl] at ha
      have hr : nextReal w.left s₁.cursor ≤ (looked w.left s₁).reach := Nat.le_max_right ..
      simp only [ht.next_eq ha hi hr, hl, Renumber.renumber_none]
      exact ⟨rfl, ht.looked ha hi hr, s₁.cursor, hP, hl, Nat.le_refl _⟩
    | some t =>
      simp only [hl] at ha
      obtain ⟨-, -, hr⟩ := (Onward.consumeMany (nextReal w.left s₁.cursor + 1 - s₁.cursor)).looked
        (.bare w.left flags) s₁
      have hnext := ht.nextReal_eq ha hi hr
      have hsize : nextReal w.left s₁.cursor < w.left.size := (Array.getElem?_eq_some_iff.mp hl).1
      have hs : w.right[nextReal w.right s₂.cursor]? = some (renumber w.number t) := by
        rw [ht.next_eq ha hi hr, hl, Renumber.renumber_some]
      have hsize₂ : nextReal w.right s₂.cursor < w.right.size :=
        (Array.getElem?_eq_some_iff.mp hs).1
      have hk : nextReal w.right s₂.cursor + 1 - s₂.cursor =
          nextReal w.left s₁.cursor + 1 - s₁.cursor := by omega
      obtain ⟨htwins, hend⟩ := (ht.looked ha hi hr).consumeMany
        (nextReal w.left s₁.cursor + 1 - s₁.cursor) (.bare w.left flags) ⟨w.right, next, flags⟩
        rfl rfl ha hi (by simp only [looked]; omega)
        (by simp only [looked, ParseContext.bare_tokens] at hr ⊢; omega)
        (by simp only [looked]; omega)
      simp only [hs, hk]
      refine ⟨rfl, htwins, s₁.cursor, hP, hl, ?_⟩
      rw [looked_cursor] at hend
      simp only [Option.isSome_some, Bool.toNat_true]
      omega

theorem alike_consume_rule : AlikeRule w m consume consume := by
  refine alike_consume.weaken (fun c hc => hc) ?_
  rintro t? c ⟨b, hb, -, hc⟩
  simp only [From] at hb ⊢
  omega

theorem alike_consume_ready :
    Alike w (Ready w m) consume consume fun _ => From w (m + 1) := by
  refine alike_consume.weaken (fun c hc => hc) ?_
  rintro t? c ⟨b, ⟨hb, t, ht⟩, heq, hc⟩
  rw [ht] at heq
  subst heq
  simp only [From, Option.isSome_some, Bool.toNat_true] at hc ⊢
  omega

theorem alike_consumeTrivia : AlikeStep w m consumeTrivia consumeTrivia where
  onward := .consumeTrivia
  twin := by
    intro next E pre₁ pre₂ s₁ s₂ flags hE ht hi hm ha
    have hle := le_nextReal w.left s₁.cursor
    have hcursor := ht.cursor
    obtain ⟨-, -, hr⟩ := (Onward.consumeMany (nextReal w.left s₁.cursor - s₁.cursor)).looked
      (.bare w.left flags) s₁
    rw [eval_consumeTrivia] at ha ⊢
    rw [eval_consumeTrivia]
    simp only [ParseContext.bare_tokens] at ha hr ⊢
    have hnext := ht.nextReal_eq ha hi hr
    have hsize := nextReal_le_size ht.left_cursor
    have hsize₂ := nextReal_le_size (Nat.le_trans ht.right_cursor ht.right_read)
    have hk : nextReal w.right s₂.cursor - s₂.cursor =
        nextReal w.left s₁.cursor - s₁.cursor := by omega
    obtain ⟨htwins, hend⟩ := (ht.looked ha hi hr).consumeMany
      (nextReal w.left s₁.cursor - s₁.cursor) (.bare w.left flags) ⟨w.right, next, flags⟩
      rfl rfl ha hi (by simp only [looked]; omega)
      (by simp only [looked] at hr ⊢; omega)
      (by simp only [looked]; omega)
    simp only [hk]
    refine ⟨rfl, htwins, ?_⟩
    rw [looked_cursor] at hend
    simp only [From] at hm ⊢
    omega

theorem alike_accept (k : Kind) : AlikeRule w m (accept k) (accept k) := by
  refine (alike_isNext k).bind fun b => ?_
  cases b with
  | true => exact alike_consume_rule.weaken (fun c hc => hc.1) fun _ _ hc => hc
  | false => exact .pure rfl fun c hc => hc.1

theorem alike_claimComments : Alike w P claimComments claimComments fun _ => P where
  onward _ _ := ⟨Nat.le_refl _, Nat.le_refl _⟩
  twin _ _ ht _ hP _ := ⟨ht.comments, ht.clear, hP⟩

theorem alike_flags : Alike w P flags flags fun _ => P where
  onward _ _ := ⟨Nat.le_refl _, Nat.le_refl _⟩
  twin _ _ ht _ hP _ := ⟨rfl, ht, hP⟩

theorem alike_lastConsumed (hm : 1 ≤ m ∨ w.i = 0 ∧ w.j = 0) :
    AlikeStep w m lastConsumed lastConsumed where
  onward c s := by
    rw [eval_lastConsumed]
    exact ⟨Nat.le_refl _, Nat.le_refl _⟩
  twin := by
    intro next E pre₁ pre₂ s₁ s₂ flags hE ht hi hs ha
    rw [eval_lastConsumed] at ha ⊢
    rw [eval_lastConsumed]
    refine ⟨?_, ht, hs⟩
    have hcursor := ht.cursor
    have hread := ht.left_read
    have hleft := ht.left_cursor
    have hright := ht.right_cursor
    have hreach := ht.left_reach
    simp only [From] at hs
    by_cases h0 : s₁.cursor = 0
    · have h0' : s₂.cursor = 0 := by omega
      simp [h0, h0']
    · have hpos : 0 < s₁.cursor := by omega
      have hpos' : 0 < s₂.cursor := by omega
      have hle : s₁.cursor ≤ s₁.read := by omega
      simp only [hpos, hpos', hright, hle, decide_true, Bool.and_self, if_true,
        ParseContext.bare_tokens]
      exact ha.slot (by omega) (by omega) (by simp only; omega)

theorem alike_extentFrom (hm : 1 ≤ m ∨ w.i = 0 ∧ w.j = 0) (t : Token) :
    AlikeStep w m (extentFrom t) (extentFrom (renumber w.number t)) := by
  refine (alike_lastConsumed hm).bind fun last? => .pure ?_ fun _ hc => hc
  cases last? <;> rfl

theorem alike_infoFrom (hm : 1 ≤ m) (t : Token) (comments : List Token) :
    AlikeStep w m (infoFrom t comments)
      (infoFrom (renumber w.number t) (renumber w.number comments)) :=
  (alike_extentFrom (.inl hm) t).bind fun _ => .pure rfl fun _ hc => hc

theorem alike_infoAfter (hm : 1 ≤ m) (start? : Option Info) :
    AlikeStep w m (infoAfter start?) (infoAfter (renumber w.number start?)) := by
  cases start? with
  | none => exact .pure rfl fun _ hc => hc
  | some info =>
    obtain ⟨extent?, comments⟩ := info
    cases extent? with
    | none => exact .pure rfl fun _ hc => hc
    | some extent => exact alike_infoFrom hm extent.first []

theorem alike_report (anchor : Option Anchor) (code : Code) (args : List Text) :
    Alike w P (report anchor code args) (report (renumber w.number anchor) code args)
      fun _ => P where
  onward _ _ := ⟨Nat.le_refl _, Nat.le_refl _⟩
  twin _ _ ht _ hP _ := ⟨rfl, ht.push ⟨code, args, anchor⟩, hP⟩

theorem alike_reportStray (t : Token) (code : Code) :
    Alike w P (reportStray t code) (reportStray (renumber w.number t) code) fun _ => P :=
  alike_report (some (.token t)) code [t.text]

theorem alike_reportNext (code : Code) (args : List Text) :
    Alike w P (reportNext code args) (reportNext code args) fun _ => P where
  onward c s := by
    rw [eval_reportNext]
    exact ⟨Nat.le_refl _, Nat.le_max_left ..⟩
  twin := by
    intro next E pre₁ pre₂ s₁ s₂ flags hE ht hi hP ha
    rw [eval_reportNext] at ha ⊢
    rw [eval_reportNext]
    have hr : nextReal w.left s₁.cursor ≤ (looked w.left s₁).reach := Nat.le_max_right ..
    have htwins := (ht.looked ha hi hr).push ⟨code, args, nextAnchor w.left s₁.cursor⟩
    refine ⟨rfl, ?_, hP⟩
    rw [ht.nextAnchor_eq ha hi hr]
    exact htwins

variable {β γ : Type} [Renumber β] [Renumber γ]

theorem alike_required {rule₁ rule₂ : Parser (Option β)} {code : Code} {standIn : β}
    (hrule : AlikeRule w m rule₁ rule₂) (hs : renumber w.number standIn = standIn) :
    AlikeStep w m (required rule₁ code standIn) (required rule₂ code standIn) := by
  refine hrule.bind fun o => ?_
  cases o with
  | some node => exact .pure rfl fun _ hc => hc.mono (Nat.le_succ m)
  | none => exact (alike_reportNext code []).bind fun _ => .pure hs.symm fun _ hc => hc

theorem alike_require (k : Kind) : AlikeRule w m (require k) (require k) := by
  refine (alike_accept k).bind fun o => ?_
  cases o with
  | some t => exact .pure rfl fun _ hc => hc
  | none => exact (alike_reportNext _ _).bind fun _ => .pure rfl fun _ hc => hc

theorem alike_next {q₁ q₂ : Option Token → Parser γ} {R : γ → Nat → Prop}
    (hnone : Alike w (From w m) (q₁ none) (q₂ none) R)
    (hsome : ∀ t, Alike w (Ready w m) (q₁ (some t)) (q₂ (some (renumber w.number t))) R) :
    Alike w (From w m) (nextToken >>= q₁) (nextToken >>= q₂) R := by
  refine alike_nextToken.bind fun t? => ?_
  cases t? with
  | none => exact hnone.weaken (fun c hc => hc.1) fun _ _ hc => hc
  | some t => exact (hsome t).weaken (fun c hc => ⟨hc.1, t, hc.2⟩) fun _ _ hc => hc

theorem alike_next_kind {q₁ q₂ : Option Kind → Parser γ} {R : γ → Nat → Prop}
    (hnone : Alike w (From w m) (q₁ none) (q₂ none) R)
    (hsome : ∀ k, Alike w (Ready w m) (q₁ (some k)) (q₂ (some k)) R) :
    Alike w (From w m) (nextKind >>= q₁) (nextKind >>= q₂) R := by
  refine alike_nextKind.bind fun k? => ?_
  cases k? with
  | none => exact hnone.weaken (fun _ hc => hc.1) fun _ _ hc => hc
  | some k =>
    refine (hsome k).weaken (fun _ hc => ⟨hc.1, ?_⟩) fun _ _ hc => hc
    obtain ⟨t, ht, -⟩ := Option.map_eq_some_iff.mp hc.2
    exact ⟨t, ht⟩

theorem Alike.taken {q₁ q₂ : Option Token → Parser γ} {R : γ → Nat → Prop}
    (hq : ∀ t?, Alike w (From w (m + 1)) (q₁ t?) (q₂ (renumber w.number t?)) R) :
    Alike w (Ready w m) (consume >>= q₁) (consume >>= q₂) R :=
  alike_consume_ready.bind hq

theorem Alike.ready {p₁ p₂ : Parser γ} {R : γ → Nat → Prop} (h : Alike w (From w m) p₁ p₂ R) :
    Alike w (Ready w m) p₁ p₂ R :=
  h.weaken (fun _ hc => hc.1) fun _ _ hc => hc

end Reparse
