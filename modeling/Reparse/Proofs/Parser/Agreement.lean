import Reparse.Proofs.Parser.Footprints

/-!
# Agreement of parsers

Two parsers agree on the tokens of a stream if from every bounded state they come to the same result
and the same state, and leave a footprint. For a parser that contains another one, agreement tells
where the other one is entered: if it agrees with itself as soon as the two that are put into it
agree behind the cursor, then it enters them there and nowhere else.
-/

namespace Reparse

open Reparse.Parser

variable {tokens : Array Token} {next : TokenId} {β γ σ : Type}

/-- From bounded states with the cursor where `P` holds, both parsers do the same, leave a
footprint, and come to where `Q` holds. -/
def Agree (tokens : Array Token) (next : TokenId) (P : Nat → Prop) (p p' : Parser β)
    (Q : β → Nat → Prop) : Prop :=
  ∀ flags s, Bounded tokens s → P s.cursor →
    p'.eval ⟨tokens, next, flags⟩ s = p.eval ⟨tokens, next, flags⟩ s ∧
      Footprint tokens s (p.eval ⟨tokens, next, flags⟩ s).2 ∧
      Q (p.eval ⟨tokens, next, flags⟩ s).1 (p.eval ⟨tokens, next, flags⟩ s).2.cursor

abbrev AgreeFrom (tokens : Array Token) (next : TokenId) (n : Nat) (p p' : Parser β) : Prop :=
  Agree tokens next (n ≤ ·) p p' fun _ c => n ≤ c

namespace Agree

variable {P P' : Nat → Prop} {p p' : Parser β} {q q' : β → Parser γ} {Q Q' : β → Nat → Prop}
  {R : γ → Nat → Prop}

theorem pure {b : β} (h : ∀ c, P c → Q b c) :
    Agree tokens next P (Pure.pure b) (Pure.pure b) Q :=
  fun _ _ hs hP => ⟨rfl, .of_still hs rfl rfl, h _ hP⟩

theorem bind (hp : Agree tokens next P p p' Q)
    (hq : ∀ b, Agree tokens next (Q b) (q b) (q' b) R) :
    Agree tokens next P (p >>= q) (p' >>= q') R := by
  intro flags s hs hP
  obtain ⟨heq, hfoot, hQ⟩ := hp flags s hs hP
  obtain ⟨heq', hfoot', hR⟩ := hq _ flags _ hfoot.bounded hQ
  rw [eval_bind, eval_bind, heq]
  exact ⟨heq', hfoot.trans hfoot', hR⟩

theorem map {f : β → γ} (hp : Agree tokens next P p p' Q) (hR : ∀ b c, Q b c → R (f b) c) :
    Agree tokens next P (f <$> p) (f <$> p') R :=
  hp.bind fun b => .pure (hR b)

theorem weaken (hp : Agree tokens next P p p' Q) (hP : ∀ c, P' c → P c)
    (hQ : ∀ b c, Q b c → Q' b c) : Agree tokens next P' p p' Q' := by
  intro flags s hs hP'
  obtain ⟨heq, hfoot, hQ'⟩ := hp flags s hs (hP _ hP')
  exact ⟨heq, hfoot, hQ _ _ hQ'⟩

theorem left (hp : Agree tokens next P p p' Q) : Agree tokens next P p p Q :=
  fun flags s hs hP => ⟨rfl, (hp flags s hs hP).2⟩

theorem of_start (h : ∀ m, P m → Agree tokens next (· = m) p p' Q) : Agree tokens next P p p' Q :=
  fun flags s hs hP => h s.cursor hP flags s hs rfl

theorem upward (hp : Agree tokens next P p p' Q) {n : Nat} (hP : ∀ c, n ≤ c → P c) :
    AgreeFrom tokens next n p p' := by
  intro flags s hs hn
  obtain ⟨heq, hfoot, -⟩ := hp flags s hs (hP _ hn)
  exact ⟨heq, hfoot, Nat.le_trans hn hfoot.onward⟩

theorem mono {m n : Nat} (hp : AgreeFrom tokens next n p p') (h : n ≤ m) :
    AgreeFrom tokens next m p p' := hp.upward fun _ hc => Nat.le_trans h hc

theorem underFlags (add remove : Flags) (hp : Agree tokens next P p p' Q) :
    Agree tokens next P (underFlags add remove p) (Parser.underFlags add remove p') Q :=
  fun _ s hs hP => hp _ s hs hP

theorem inBrackets (hp : Agree tokens next P p p' Q) :
    Agree tokens next P (inBrackets p) (Parser.inBrackets p') Q :=
  hp.underFlags {} { noObject := true }

theorem watched (hp : Agree tokens next P p p' Q) :
    Agree tokens next P (watched p) (Parser.watched p') fun r c =>
      ∃ b, P b ∧ b ≤ c ∧ (r.2 = true → b < c) := by
  intro flags s hs hP
  obtain ⟨heq, hfoot, -⟩ := hp flags s hs hP
  have honward := hfoot.onward
  rw [eval_watched, eval_watched, heq]
  refine ⟨rfl, hfoot, s.cursor, hP, honward, fun hmoved => ?_⟩
  have hne := of_decide_eq_true hmoved
  exact Nat.lt_of_le_of_ne honward (Ne.symm hne)

end Agree

def Still (p : Parser β) : Prop :=
  ∀ c s, (p.eval c s).2.cursor = s.cursor ∧ (p.eval c s).2.memo = s.memo

namespace Still

variable {p : Parser β} {q : β → Parser γ}

theorem pure (b : β) : Still (Pure.pure b : Parser β) := fun _ _ => ⟨rfl, rfl⟩

theorem bind (hp : Still p) (hq : ∀ b, Still (q b)) : Still (p >>= q) := by
  intro c s
  obtain ⟨hcursor, hmemo⟩ := hp c s
  obtain ⟨hcursor', hmemo'⟩ := hq (p.eval c s).1 c (p.eval c s).2
  exact ⟨hcursor'.trans hcursor, hmemo'.trans hmemo⟩

theorem agree (hp : Still p) {P : Nat → Prop} : Agree tokens next P p p fun _ => P := by
  intro flags s hs hP
  obtain ⟨hcursor, hmemo⟩ := hp ⟨tokens, next, flags⟩ s
  refine ⟨rfl, .of_still hs hcursor hmemo, ?_⟩
  rw [hcursor]
  exact hP

theorem nextToken : Still Parser.nextToken := fun _ _ => ⟨rfl, rfl⟩

theorem nextKind : Still Parser.nextKind := nextToken.bind fun _ => .pure _

theorem isNext (k : Kind) : Still (isNext k) := nextKind.bind fun _ => .pure _

theorem flags : Still Parser.flags := fun _ _ => ⟨rfl, rfl⟩

theorem claimComments : Still Parser.claimComments := fun _ _ => ⟨rfl, rfl⟩

theorem lastConsumed : Still Parser.lastConsumed := fun c s => by
  rw [eval_lastConsumed]
  exact ⟨rfl, rfl⟩

theorem extentFrom (t : Token) : Still (extentFrom t) := lastConsumed.bind fun _ => .pure _

theorem infoFrom (t : Token) (comments : List Token) : Still (infoFrom t comments) :=
  (extentFrom t).bind fun _ => .pure _

theorem infoAfter (start? : Option Info) : Still (infoAfter start?) := by
  unfold Parser.infoAfter
  split
  · exact .infoFrom _ []
  · exact .pure _

theorem report (anchor : Option Anchor) (code : Code) (args : List Text) :
    Still (report anchor code args) := fun _ _ => ⟨rfl, rfl⟩

theorem reportNext (code : Code) (args : List Text) : Still (reportNext code args) := fun c s => by
  rw [eval_reportNext]
  exact ⟨rfl, rfl⟩

theorem checkTrailing (shape : SeriesShape) (t : Token) : Still (checkTrailing shape t) := by
  unfold Parser.checkTrailing
  split
  · refine (isNext _).bind fun b => ?_
    cases b with
    | true => exact .report _ _ _
    | false => exact .pure ()
  · exact .pure ()

end Still

section Consuming

variable {P : Nat → Prop} {n : Nat}

theorem agree_nextToken :
    Agree tokens next P nextToken nextToken fun t? c => P c ∧ tokens[nextReal tokens c]? = t? :=
  fun _ _ hs hP => ⟨rfl, .of_still hs rfl rfl, hP, rfl⟩

theorem agree_nextKind :
    Agree tokens next P nextKind nextKind fun k? c =>
      P c ∧ (tokens[nextReal tokens c]?).map Token.kind = k? :=
  agree_nextToken.bind fun _ => .pure fun _ hc => ⟨hc.1, by rw [hc.2]⟩

theorem agree_consume :
    Agree tokens next P consume consume fun t? c => ∃ b, P b ∧ tokens[nextReal tokens b]? = t? ∧
      b + t?.isSome.toNat ≤ c := by
  intro flags s hs hP
  obtain ⟨hpasses, hvalue, hcursor⟩ := passes_consume (c := ⟨tokens, next, flags⟩) hs.cursor
  refine ⟨rfl, hpasses.footprint hs, s.cursor, hP, hvalue.symm, ?_⟩
  rw [hcursor]
  have hle := le_nextReal tokens s.cursor
  cases (consume.eval ⟨tokens, next, flags⟩ s).1.isSome with
  | true => exact Nat.succ_le_succ hle
  | false => exact Nat.le_refl _

def AheadFrom (tokens : Array Token) (n c : Nat) : Prop :=
  n ≤ c ∧ ∃ t, tokens[nextReal tokens c]? = some t

theorem agree_taken {q q' : Option Token → Parser γ} {R : γ → Nat → Prop}
    (hq : ∀ t?, Agree tokens next (n + 1 ≤ ·) (q t?) (q' t?) R) :
    Agree tokens next (AheadFrom tokens n) (consume >>= q) (consume >>= q') R := by
  refine agree_consume.bind fun t? => (hq t?).weaken ?_ fun _ _ h => h
  rintro c ⟨b, ⟨hb, t, ht⟩, heq, hc⟩
  rw [ht] at heq
  subst heq
  exact Nat.le_trans (Nat.succ_le_succ hb) hc

theorem agree_next {q q' : Option Token → Parser γ} {R : γ → Nat → Prop}
    (hnone : Agree tokens next (n ≤ ·) (q none) (q' none) R)
    (hsome : ∀ t, Agree tokens next (AheadFrom tokens n) (q (some t)) (q' (some t)) R) :
    Agree tokens next (n ≤ ·) (nextToken >>= q) (nextToken >>= q') R := by
  refine agree_nextToken.bind fun t? => ?_
  cases t? with
  | none => exact hnone.weaken (fun _ hc => hc.1) fun _ _ h => h
  | some t => exact (hsome t).weaken (fun _ hc => ⟨hc.1, t, hc.2⟩) fun _ _ h => h

theorem agree_next_kind {q q' : Option Kind → Parser γ} {R : γ → Nat → Prop}
    (hnone : Agree tokens next (n ≤ ·) (q none) (q' none) R)
    (hsome : ∀ k, Agree tokens next (AheadFrom tokens n) (q (some k)) (q' (some k)) R) :
    Agree tokens next (n ≤ ·) (nextKind >>= q) (nextKind >>= q') R := by
  refine agree_nextKind.bind fun k? => ?_
  cases k? with
  | none => exact hnone.weaken (fun _ hc => hc.1) fun _ _ h => h
  | some k =>
    refine (hsome k).weaken (fun _ hc => ⟨hc.1, ?_⟩) fun _ _ h => h
    obtain ⟨t, ht, -⟩ := Option.map_eq_some_iff.mp hc.2
    exact ⟨t, ht⟩

abbrev AgreeRule (tokens : Array Token) (next : TokenId) (n : Nat) (p p' : Parser (Option β)) :
    Prop :=
  Agree tokens next (n ≤ ·) p p' fun o c => n + o.isSome.toNat ≤ c

theorem agree_accept (k : Kind) : AgreeRule tokens next n (accept k) (accept k) := by
  refine (Still.isNext k).agree.bind fun b => ?_
  cases b with
  | true =>
    refine agree_consume.weaken (fun _ hc => hc) ?_
    rintro t? c ⟨b, hb, -, hc⟩
    exact Nat.le_trans (Nat.add_le_add_right hb _) hc
  | false => exact .pure fun _ hc => hc

theorem agree_require (k : Kind) : AgreeRule tokens next n (require k) (require k) := by
  refine (agree_accept k).bind fun t? => ?_
  cases t? with
  | some t => exact .pure fun _ hc => hc
  | none => exact (Still.reportNext _ _).agree.bind fun _ => .pure fun _ hc => hc

theorem Agree.step {p p' : Parser (Option β)} (h : AgreeRule tokens next n p p') :
    AgreeFrom tokens next n p p' := h.upward fun _ hc => hc

theorem agree_required {p p' : Parser (Option β)} {code : Code} {standIn : β}
    (h : AgreeFrom tokens next n p p') :
    AgreeFrom tokens next n (required p code standIn) (required p' code standIn) := by
  refine h.bind fun o => ?_
  cases o with
  | some node => exact .pure fun _ hc => hc
  | none => exact (Still.reportNext code []).agree.bind fun _ => .pure fun _ hc => hc

end Consuming

end Reparse
