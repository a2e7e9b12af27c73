import Reparse.Proofs.Parser.Reads

/-!
# What loops and series read

A loop keeps an invariant of its state and the words ahead. A series without errors consumes its
items and the delimiters between them. Recovery never takes part in a clean run: it starts with a
report.
-/

namespace Reparse

open Reparse.Parser

variable {β σ : Type} {tokens : Array Token} {flags : Flags} {given : Prop} {before : List Word}

def Turned (I Q : σ → List Word → Prop) : Turn σ → List Word → Prop
  | .again b, after => I b after
  | .done b, after => Q b after

theorem length_ahead_le (tokens : Array Token) (cursor : Nat) :
    (ahead tokens cursor).length ≤ tokens.size - cursor := by
  rw [ahead, Token.words, List.length_map]
  have hfilter := List.length_filter_le (fun t : Token => !t.isTrivia) (tokens.toList.drop cursor)
  rwa [List.length_drop, Array.length_toList] at hfilter

theorem Reads.bounded {p : Parser β} {Q : β → List Word → Prop}
    (hp : Reads tokens flags (given ∧ before.length ≤ tokens.size) before p Q) :
    Reads tokens flags given before p Q where
  grows := hp.grows
  reads := by
    intro hgiven s hs hbefore hclean
    have hlength := length_ahead_le tokens s.cursor
    rw [hbefore] at hlength
    exact hp.reads ⟨hgiven, Nat.le_trans hlength (Nat.sub_le _ _)⟩ hs hbefore hclean

theorem reads_iterate {turn : σ → Parser (Turn σ)} {I : Nat → σ → List Word → Prop}
    {Q : σ → List Word → Prop}
    (hturn : ∀ n b here, Reads tokens flags (given ∧ I (n + 1) b here) here (turn b)
      (Turned (I n) Q))
    (hend : given → ∀ b here, I 0 b here → Q b here) (n : Nat) (b : σ) (here : List Word) :
    Reads tokens flags (given ∧ I n b here) here (iterate turn n b) Q := by
  induction n generalizing b here with
  | zero => exact .pure fun h => hend h.1 b here h.2
  | succ n ih =>
    rw [iterate_succ]
    refine (hturn n b here).bind fun turned after => ?_
    cases turned with
    | again b' => exact (ih b' after).under fun h => ⟨h.1.1, h.2⟩
    | done b' => exact .pure fun h => h.2

theorem reads_loop {turn : σ → Parser (Turn σ)} {I : Nat → σ → List Word → Prop}
    {Q : σ → List Word → Prop} {b : σ}
    (hstart : given → ∀ n, before.length < n → I n b before)
    (hturn : ∀ n b here, Reads tokens flags (given ∧ I (n + 1) b here) here (turn b)
      (Turned (I n) Q))
    (hend : given → ∀ b here, I 0 b here → Q b here) :
    Reads tokens flags given before (loop turn b) Q where
  grows := by
    intro c s h
    rw [eval_loop] at h
    exact (reads_iterate hturn hend _ b before).grows c s h
  reads := by
    intro hgiven s hs hbefore hclean
    rw [eval_loop] at hclean ⊢
    have hfuel : before.length < tokens.size - s.cursor + 1 :=
      Nat.lt_succ_of_le (hbefore ▸ length_ahead_le tokens s.cursor)
    exact (reads_iterate hturn hend _ b before).reads ⟨hgiven, hstart hgiven _ hfuel⟩ hs hbefore
      hclean

theorem reads_loop_keeps {turn : σ → Parser (Turn σ)} {I : σ → List Word → Prop} {b : σ}
    (hstart : given → I b before)
    (hturn : ∀ b here, Reads tokens flags (given ∧ I b here) here (turn b) (Turned I I)) :
    Reads tokens flags given before (loop turn b) I :=
  reads_loop (I := fun _ => I) (fun h _ _ => hstart h) (fun _ => hturn) fun _ _ _ h => h

theorem reads_skipTo (set : KindSet) :
    Reads tokens flags given before (skipTo set) fun _ _ => True := by
  refine reads_loop_keeps (fun _ => trivial) fun _ here => reads_nextKind.bind fun k? _ => ?_
  cases k? with
  | none => exact .pure fun _ => trivial
  | some k =>
    dsimp only
    split
    · exact .pure fun _ => trivial
    · exact reads_consume.bind fun _ _ => .pure fun _ => trivial

theorem reads_skipStray (set : KindSet) {code : Code} (hcode : code.severity = .error) :
    Reads tokens flags given before (skipStray set code) fun _ after => before = [] ∧ after = [] := by
  refine reads_consume.bind fun t? _ => ?_
  cases t? with
  | none => exact .pure fun h => h.2
  | some t =>
    refine (reads_fault hcode).bind fun _ _ => (reads_skipTo set).bind fun found _ => ?_
    cases found with
    | false => exact .pure fun h => h.1.2.elim
    | true => exact (reads_accept _).bind fun _ _ => .pure fun h => h.1.1.2.elim

theorem reads_seriesEnd? (shape : SeriesShape) :
    Reads tokens flags given before (seriesEnd? shape) fun stop? after =>
      after = before ∧ (stop? = none → before ≠ []) ∧
        (shape.terminator = none → stop?.isSome = true → before = []) := by
  refine reads_nextKind.bind fun k? after => ?_
  cases k? with
  | none =>
    refine .pure ?_
    rintro ⟨-, rfl, hlead⟩
    have hnil : after = [] := List.head?_eq_none_iff.mp (Option.map_eq_none_iff.mp hlead.symm)
    exact ⟨rfl, fun h => absurd h (Option.some_ne_none _), fun _ _ => hnil⟩
  | some k =>
    refine .pure ?_
    rintro ⟨-, rfl, hlead⟩
    refine ⟨rfl, fun _ hnil => ?_, fun hshape hstop => ?_⟩
    · rw [hnil] at hlead
      cases hlead
    · rw [hshape] at hstop
      cases hstop

theorem reads_checkTrailing (shape : SeriesShape) (t : Token) :
    Reads tokens flags given before (checkTrailing shape t) fun _ after =>
      after = before ∧
        (shape.allowTrailing = false → ∀ k, shape.terminator = some k → lead before ≠ some k) := by
  simp only [checkTrailing]
  split
  next hallow k hk =>
    refine (reads_isNext _).bind fun b after => ?_
    cases b with
    | true => exact (reads_fault rfl).weaken (fun h => h) fun _ _ _ h => h.elim
    | false =>
      refine .pure ?_
      rintro ⟨-, rfl, hlead⟩
      refine ⟨rfl, fun _ j hj heq => ?_⟩
      rw [hk] at hj
      cases hj
      simp [heq] at hlead
  next h =>
    refine .pure fun _ => ⟨rfl, fun hallow k hk => ?_⟩
    exact (h k hallow hk).elim

variable {ok : β → Prop} {slots : β → List Slot}

def Written (ok : β → Prop) (slots : β → List Slot) (before : List Word) (b : β)
    (after : List Word) : Prop :=
  ok b ∧ Spells (slots b) before after

def Strung (shape : SeriesShape) (ok : β → Prop) (slots : β → List Slot) (before : List Word)
    (s : Series β) (here : List Word) : Prop :=
  (∀ x ∈ s.items.toList, ok x) ∧
    Spells (Slot.terminated .comma (s.items.toList.map slots)) before here ∧
    (shape.allowTrailing = false → s.items.toList ≠ [] →
      ∀ k, shape.terminator = some k → lead here ≠ some k)

def Listed (shape : SeriesShape) (ok : β → Prop) (slots : β → List Slot) (before : List Word)
    (xs : List β) (after : List Word) : Prop :=
  (∀ x ∈ xs, ok x) ∧ Spells (Slot.listed (xs.map slots)) before after ∧
    (shape.allowTrailing = false → ∀ k, shape.terminator = some k → lead after = some k →
      Spells (Slot.separated .comma (xs.map slots)) before after)

theorem Strung.listed {shape : SeriesShape} {s : Series β} {here : List Word}
    (h : Strung shape ok slots before s here) :
    Listed shape ok slots before s.items.toList here := by
  refine ⟨h.1, h.2.1.listed_of_terminated, fun hallow k hk hlead => ?_⟩
  by_cases hnil : s.items.toList = []
  · have hspells := h.2.1
    rw [hnil] at hspells ⊢
    exact hspells
  · exact (h.2.2 hallow hnil k hk hlead).elim

theorem Strung.snoc {shape : SeriesShape} {s : Series β} {here after : List Word} {x : β}
    (h : Strung shape ok slots before s here) (hx : Written ok slots here x after) :
    Listed shape ok slots before (s.items.push x).toList after := by
  rw [Array.toList_push]
  refine ⟨?_, ?_, fun _ _ _ _ => ?_⟩
  · intro y hy
    rcases List.mem_append.mp hy with hy | hy
    · exact h.1 y hy
    · exact List.mem_singleton.mp hy ▸ hx.1
  · rw [List.map_append]
    exact h.2.1.listed_snoc hx.2
  · rw [List.map_append]
    exact h.2.1.separated_snoc hx.2

theorem Strung.comma {shape : SeriesShape} {s : Series β} {here after : List Word} {x : β}
    (h : Strung shape ok slots before s here)
    (hx : Written ok slots here x (.mark .comma :: after))
    (hafter : shape.allowTrailing = false → ∀ k, shape.terminator = some k → lead after ≠ some k) :
    Strung shape ok slots before { s with items := s.items.push x } after := by
  refine ⟨(h.snoc hx).1, ?_, fun hallow _ => hafter hallow⟩
  simp only [Array.toList_push, List.map_append]
  exact h.2.1.terminated_snoc hx.2

theorem reads_afterComma {shape : SeriesShape} (hshape : shape.delimiter = some .comma)
    (moved : Bool) (s : Series β) :
    Reads tokens flags given before (afterItem shape moved s) fun turned after =>
      match turned with
      | .again s' => s' = s ∧ before = .mark .comma :: after ∧
        (shape.allowTrailing = false → ∀ k, shape.terminator = some k → lead after ≠ some k)
      | .done s' => s'.items = s.items ∧ after = before := by
  simp only [afterItem, hshape]
  refine (reads_acceptMark rfl).bind fun t? after => ?_
  cases t? with
  | none =>
    refine (reads_seriesEnd? shape).bind fun stop? here => .pure ?_
    rintro ⟨⟨-, rfl, -⟩, rfl, -⟩
    exact ⟨rfl, rfl⟩
  | some t =>
    refine (reads_checkTrailing shape t).bind fun _ here => .pure ?_
    rintro ⟨⟨-, hbefore⟩, rfl, htrailing⟩
    exact ⟨rfl, hbefore, htrailing⟩

theorem reads_commas {shape : SeriesShape} {item : Parser (Option β)}
    (hshape : shape.delimiter = some .comma) (hresync : shape.resync = none)
    (hitem : ∀ here, Reads tokens flags given here item (Yields (Written ok slots here) here)) :
    Reads tokens flags given before (items shape item) (Listed shape ok slots before) := by
  refine Reads.bind (Q := fun s => Listed shape ok slots before s.items.toList) ?_
    fun s after => .pure fun h => h.2
  refine reads_loop (I := fun _ => Strung shape ok slots before) ?_ ?_ fun _ s here h => h.listed
  · intro _ n _
    exact ⟨fun _ hx => absurd hx List.not_mem_nil, .nil, fun _ hnil => (hnil rfl).elim⟩
  intro _ s here
  refine (reads_seriesEnd? shape).bind fun stop? _ => ?_
  cases stop? with
  | some stop =>
    refine .pure ?_
    rintro ⟨⟨-, hstrung⟩, rfl, -⟩
    exact hstrung.listed
  | none =>
    refine (((hitem _).under fun h => h.1.1).watched).bind fun found after => ?_
    obtain ⟨value?, moved⟩ := found
    cases value? with
    | none =>
      simp only [SeriesShape.resumeSet?, hresync]
      refine .pure ?_
      rintro ⟨⟨⟨-, hstrung⟩, rfl, -⟩, hfound, -⟩
      cases hfound
      exact hstrung.listed
    | some value =>
      refine (reads_afterComma hshape moved _).weaken (fun h => h) ?_
      rintro ⟨⟨⟨-, hstrung⟩, rfl, -⟩, hvalue, -⟩ turned rest h
      cases turned with
      | again s' =>
        obtain ⟨rfl, rfl, hafter⟩ := h
        exact hstrung.comma hvalue hafter
      | done s' =>
        obtain ⟨hs', rfl⟩ := h
        simp only [Turned, hs']
        exact hstrung.snoc hvalue

/-- The items of a run follow each other. `Lost` says that the run may have lost track at the end of
input. -/
def Run (Lost : Prop) (ok : β → Prop) (slots : β → List Slot) (before : List Word) (xs : List β)
    (here : List Word) : Prop :=
  (Lost ∧ here = []) ∨ (∀ x ∈ xs, ok x) ∧ Spells (xs.flatMap slots) before here

theorem Run.snoc {Lost : Prop} {xs : List β} {x : β} {here after : List Word}
    (h : Run Lost ok slots before xs here) (hx : Written ok slots here x after)
    (hhere : here ≠ []) : Run Lost ok slots before (xs ++ [x]) after := by
  rcases h with ⟨-, hnil⟩ | ⟨hok, hspells⟩
  · exact (hhere hnil).elim
  · refine .inr ⟨fun y hy => ?_, ?_⟩
    · rcases List.mem_append.mp hy with hy | hy
      · exact hok y hy
      · exact List.mem_singleton.mp hy ▸ hx.1
    · rw [List.flatMap_append, List.flatMap_singleton]
      exact hspells.append hx.2

theorem reads_run (Lost : Prop) (ok : β → Prop) (slots : β → List Slot) {shape : SeriesShape}
    {set : KindSet} {item : Parser (Option β)}
    (hshape : shape.delimiter = none) (hresync : shape.resync = some set)
    (hstray : shape.stray.severity = .error)
    (hitem : ∀ here, Reads tokens flags (given ∧ here.length ≤ before.length) here item
      fun x? after =>
        match x? with
        | none => here ≠ [] → after = [] → Lost
        | some x => after.length < here.length ∧ Written ok slots here x after) :
    Reads tokens flags given before (items shape item) fun xs after =>
      Run Lost ok slots before xs after ∧ (shape.terminator = none → after = []) := by
  refine Reads.bind
    (Q := fun s after => Run Lost ok slots before s.items.toList after ∧
      (shape.terminator = none → after = [])) ?_ fun s after => .pure fun h => h.2
  refine reads_loop
    (I := fun n s here => here.length < n ∧ here.length ≤ before.length ∧
      Run Lost ok slots before s.items.toList here) ?_ ?_ ?_
  · intro _ n hn
    exact ⟨hn, Nat.le_refl _, .inr ⟨fun _ hx => absurd hx List.not_mem_nil, .nil⟩⟩
  · intro n s here
    refine (reads_seriesEnd? shape).bind fun stop? _ => ?_
    cases stop? with
    | some stop =>
      refine .pure ?_
      rintro ⟨⟨-, -, -, hrun⟩, rfl, -, hend⟩
      exact ⟨hrun, fun hterminator => hend hterminator rfl⟩
    | none =>
      refine (((hitem _).under fun h => ⟨h.1.1, ?_⟩).watched).bind fun found after => ?_
      · obtain ⟨⟨-, -, hlength, -⟩, rfl, -⟩ := h
        exact hlength
      obtain ⟨value?, moved⟩ := found
      cases value? with
      | none =>
        simp only [SeriesShape.resumeSet?, hresync, Option.map_some]
        refine (reads_skipStray _ hstray).bind fun _ rest => .pure ?_
        rintro ⟨⟨⟨⟨-, hfuel, hlength, hrun⟩, rfl, hhere, -⟩, hlost, -⟩, hafter, rfl⟩
        have hpos := List.length_pos_iff.mpr (hhere trivial)
        exact ⟨by simp only [List.length_nil]; omega, Nat.zero_le _,
          .inl ⟨hlost (hhere trivial) hafter, rfl⟩⟩
      | some value =>
        simp only [afterItem, hshape]
        split
        · refine .pure ?_
          rintro ⟨⟨⟨-, hfuel, hlength, hrun⟩, rfl, hhere, -⟩, ⟨hless, hvalue⟩, -⟩
          refine ⟨by omega, by omega, ?_⟩
          rw [Array.toList_push]
          exact hrun.snoc hvalue (hhere trivial)
        next hmoved =>
          refine .pure ?_
          rintro ⟨⟨-, rfl, -⟩, ⟨hless, -⟩, hstill⟩
          have heq := hstill (Bool.eq_false_iff.mpr hmoved)
          rw [heq] at hless
          exact (Nat.lt_irrefl _ hless).elim
  · rintro _ s here ⟨hfuel, -⟩
    exact (Nat.not_lt_zero _ hfuel).elim

end Reparse
