import Reparse.Proofs.Parser.BuildSeries

/-!
# What parsers give

Some things hold of what a parser gives wherever it starts and however far it gets, so they are said
of its results alone. And what every turn of a loop keeps, the loop keeps, whether its turns get
ahead or not.
-/

namespace Reparse

open Reparse.Parser

variable {β γ σ : Type} {tokens : Array Token} {flags : Flags} {a b : Trail}

theorem Runs.both {p : Parser β} {Q R : β → Trail → Prop} (hQ : Runs tokens flags a p Q)
    (hR : Runs tokens flags a p R) : Runs tokens flags a p fun x b => Q x b ∧ R x b :=
  fun s hs ha => ⟨(hQ s hs ha).1, (hQ s hs ha).2, (hR s hs ha).2⟩

theorem runs_infoFrom (first : Token) (comments : List Token) :
    Runs tokens flags a (infoFrom first comments) fun _ b => b = a :=
  (runs_lastConsumed.map fun _ _ h => h.1).bind fun _ _ h => .pure h

theorem runs_infoAfter (start? : Option Info) :
    Runs tokens flags a (infoAfter start?) fun _ b => b = a := by
  unfold infoAfter
  split
  · exact runs_infoFrom _ _
  · exact .pure rfl

theorem runs_stray_if {misplaced : Bool} {t : Token} {rest : Unit → Parser β} {R : β → Trail → Prop}
    (hrest : ∀ b, b.cursor = a.cursor →
      b.reports = a.reports ++ (if misplaced = true then [.stray .strayToken t] else []) →
      Runs tokens flags b (rest ()) R) :
    Runs tokens flags a
      (if misplaced = true then reportStray t .strayToken >>= rest else rest ()) R := by
  split
  next h =>
    refine (runs_reportStray t .strayToken).bind fun _ b hb => ?_
    subst hb
    exact hrest _ rfl (by rw [if_pos h]; rfl)
  next h => exact hrest a rfl (by rw [if_neg h, List.append_nil])

def Parser.Turn.state : Turn σ → σ
  | .again s | .done s => s

theorem runs_iterate_keeps {turn : σ → Parser (Turn σ)} {I : σ → Trail → Prop}
    (hturn : ∀ x a, I x a → Runs tokens flags a (turn x) fun t b => I t.state b) (n : Nat) {x : σ}
    (hx : I x a) : Runs tokens flags a (iterate turn n x) I := by
  induction n generalizing x a with
  | zero => exact .pure hx
  | succ n ih =>
    rw [iterate_succ]
    refine (hturn x a hx).bind fun t b h => ?_
    cases t with
    | again y => exact ih h
    | done y => exact .pure h

theorem runs_loop_keeps {turn : σ → Parser (Turn σ)} {I : σ → Trail → Prop}
    (hturn : ∀ x a, I x a → Runs tokens flags a (turn x) fun t b => I t.state b) {x : σ}
    (hx : I x a) : Runs tokens flags a (loop turn x) I := by
  intro s hs ha
  rw [eval_loop]
  exact runs_iterate_keeps hturn _ hx s hs ha

theorem runs_checkTrailing_reports (shape : SeriesShape) (delimiter : Token) :
    Runs tokens flags a (checkTrailing shape delimiter) fun _ b =>
      b = a ∨ b = a.reported (.stray .strayToken delimiter) := by
  unfold checkTrailing
  split
  · refine (runs_isNext _).bind fun x b hb => ?_
    obtain ⟨rfl, -⟩ := hb
    split
    · exact (runs_reportStray _ _).weaken fun _ _ h => .inr h
    · exact .pure (.inl rfl)
  · exact .pure (.inl rfl)

theorem runs_skipStray_reports (set : KindSet) (code : Code) :
    Runs tokens flags a (skipStray set code) fun _ b =>
      a.next? tokens = none ∧ b = a ∨ ∃ t, a.next? tokens = some t ∧ a.cursor ≤ b.cursor ∧
        b.reports = a.reports ++ [.stray code t] := by
  refine runs_consume.bind fun t? b hb => ?_
  cases t? with
  | none => exact .pure (.inl hb)
  | some t =>
    obtain ⟨ht, rfl⟩ := hb
    refine (runs_reportStray t code).bind fun _ b hb => ?_
    subst hb
    have hpast : a.cursor ≤ (a.past tokens).cursor :=
      Nat.le_succ_of_le (le_nextReal tokens a.cursor)
    refine (runs_skipTo set).bind fun found c hc => ?_
    obtain ⟨run, hwalk, -⟩ := hc
    have hreports : c.reports = a.reports ++ [.stray code t] := by
      rw [hwalk.reports, List.append_nil]
      rfl
    have hle : a.cursor ≤ c.cursor := Nat.le_trans hpast hwalk.le
    split
    · refine (runs_accept .semicolon).bind fun t? d hd => .pure (.inr ⟨t, ht, ?_⟩)
      cases t? with
      | none =>
        obtain ⟨rfl, -⟩ := hd
        exact ⟨hle, hreports⟩
      | some u =>
        obtain ⟨-, -, rfl⟩ := hd
        exact ⟨Nat.le_trans hle (Nat.le_succ_of_le (le_nextReal tokens c.cursor)), hreports⟩
    · exact .pure (.inr ⟨t, ht, hle, hreports⟩)

def Proceeds (tokens : Array Token) (flags : Flags) (shape : SeriesShape)
    (K : List β → Trail → Prop) (xs : List β) : Option β → Trail → Prop
  | some x, b => K (xs ++ [x]) b
  | none, b =>
    match shape.resumeSet? with
    | none => K xs b
    | some set => Runs tokens flags b (skipStray set shape.stray) fun _ c => K xs c

theorem runs_items_keeps {shape : SeriesShape} {item : Parser (Option β)}
    {K : List β → Trail → Prop}
    (hitem : ∀ xs a, K xs a → Runs tokens flags a item (Proceeds tokens flags shape K xs))
    (hdelimiter : ∀ xs a t, K xs a → a.next? tokens = some t → shape.delimiter = some t.kind →
      Runs tokens flags (a.past tokens) (checkTrailing shape t) fun _ b => K xs b)
    (h : K [] a) : Runs tokens flags a (items shape item) K := by
  refine (runs_loop_keeps (I := fun s b => K s.items.toList b) (fun s b hs => ?_) h).bind
    fun s b hs => .pure hs
  refine (runs_seriesEnd? shape).bind fun stop? c hc => ?_
  obtain ⟨rfl, -⟩ := hc
  cases stop? with
  | some stop => exact .pure hs
  | none =>
    refine (hitem _ c hs).watched.bind fun x d hx => ?_
    obtain ⟨x?, moved⟩ := x
    obtain ⟨hx, -⟩ := hx
    cases x? with
    | none =>
      cases hset : shape.resumeSet? with
      | none =>
        simp only [Proceeds, hset] at hx ⊢
        exact .pure hx
      | some set =>
        simp only [Proceeds, hset] at hx ⊢
        exact hx.bind fun _ e he => .pure he
    | some x =>
      have hpush : K (s.items.push x).toList d := by rwa [Array.toList_push]
      dsimp only [afterItem]
      split
      · split
        · exact .pure hpush
        · exact .pure hpush
      next k hk =>
        refine (runs_accept k).bind fun t? e he => ?_
        cases t? with
        | none =>
          obtain ⟨rfl, -⟩ := he
          refine (runs_seriesEnd? shape).bind fun stop? f hf => .pure ?_
          obtain ⟨rfl, -⟩ := hf
          exact hpush
        | some t =>
          obtain ⟨ht, hkind, rfl⟩ := he
          exact (hdelimiter _ d t hpush ht (hkind ▸ hk)).bind fun _ f hf => .pure hf

/-- Wherever a bare run of the parser starts, `P` holds of what it gives. -/
def Ensures (tokens : Array Token) (p : Parser β) (P : β → Prop) : Prop :=
  ∀ flags a, Runs tokens flags a p fun x _ => P x

namespace Ensures

variable {p : Parser (Option β)} {P : β → Prop}

theorem underFlags {q : Parser γ} {R : γ → Prop} (h : Ensures tokens q R) (add remove : Flags) :
    Ensures tokens (underFlags add remove q) R := fun _ a => (h _ a).underFlags

theorem remembered [RuleNode β] (h : Ensures tokens p fun x? => ∀ x ∈ x?, P x) :
    Ensures tokens (remembered p) fun x? => ∀ x ∈ x?, P x :=
  fun flags a => .remembered (fun _ => h flags a) (h flags _)

theorem required (h : Ensures tokens p fun x? => ∀ x ∈ x?, P x) {code : Code} {standIn : β}
    (hstandIn : P standIn) : Ensures tokens (required p code standIn) P := by
  refine fun flags a => (h flags a).bind fun x? b hx => ?_
  cases x? with
  | some x => exact .pure (hx x rfl)
  | none => exact (runs_reportNext code []).bind fun _ _ _ => .pure hstandIn

theorem loop {turn : σ → Parser (Turn σ)} {I : σ → Prop}
    (hturn : ∀ x, I x → Ensures tokens (turn x) fun t => I t.state) {x : σ} (hx : I x) :
    Ensures tokens (loop turn x) I :=
  fun flags _ => runs_loop_keeps (I := fun x _ => I x) (fun x a h => hturn x h flags a) hx

theorem items (h : Ensures tokens p fun x? => ∀ x ∈ x?, P x) (shape : SeriesShape) :
    Ensures tokens (items shape p) fun xs => ∀ x ∈ xs, P x := by
  intro flags a
  refine runs_items_keeps (K := fun xs _ => ∀ x ∈ xs, P x) (fun xs b hxs => ?_)
    (fun xs b t hxs _ _ => (runs_checkTrailing_reports shape t).weaken fun _ _ _ => hxs)
    (fun x hx => absurd hx List.not_mem_nil)
  refine (h flags b).weaken fun x? c hx => ?_
  cases x? with
  | none =>
    cases hset : shape.resumeSet? with
    | none =>
      simp only [Proceeds, hset]
      exact hxs
    | some set =>
      simp only [Proceeds, hset]
      exact (runs_skipStray_reports _ _).weaken fun _ _ _ => hxs
  | some x =>
    intro y hy
    rcases List.mem_append.mp hy with hy | hy
    · exact hxs y hy
    · exact List.mem_singleton.mp hy ▸ hx x rfl

end Ensures

end Reparse
