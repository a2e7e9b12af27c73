import Reparse.Proofs.Parser.Finds
import Reparse.Proofs.Parser.ReadSeries

/-!
# What loops and series find

A loop goes on as long as the words ahead ask for another turn. A series finds the items that are
written one behind the other, and with commas between them where it has any; it stops in front of
its terminator.
-/

namespace Reparse

open Reparse.Parser

variable {β γ σ : Type} {tokens : Array Token} {flags : Flags} {least : Nat}
  {before mid after rest : List Word} {w : Word}

def Again (P : σ → Prop) (t : Turn σ) : Prop := ∃ b, t = .again b ∧ P b

def Done (P : σ → Prop) (t : Turn σ) : Prop := ∃ b, t = .done b ∧ P b

/-- Turns that lead from the words `before`, where `P` holds of the state of a loop, to words
further on and what holds there. -/
inductive Turns (tokens : Array Token) (flags : Flags) (least : Nat) (turn : σ → Parser (Turn σ))
    (P : σ → Prop) (before : List Word) : (σ → Prop) → List Word → Prop
  | none : Turns tokens flags least turn P before P before
  | one {P' P'' : σ → Prop} {mid after : List Word} :
      Turns tokens flags least turn P before P' mid →
      (∀ b, P' b → Finds tokens flags least mid (turn b) after (Again P'')) →
      after.length < mid.length → Turns tokens flags least turn P before P'' after

section

variable {turn : σ → Parser (Turn σ)} {P P' : σ → Prop} {R : σ → Prop} {b : σ}

theorem At.length_le {s : ParseState} (h : At tokens least before s) :
    before.length ≤ tokens.size - s.cursor := by
  have hlength := length_ahead_le tokens s.cursor
  rwa [h.ahead] at hlength

theorem Finds.bounded {p : Parser σ}
    (h : before.length ≤ tokens.size → Finds tokens flags least before p after R) :
    Finds tokens flags least before p after R :=
  fun s hs => h (Nat.le_trans hs.length_le (Nat.sub_le _ _)) s hs

theorem finds_loop
    (h : ∀ n, before.length < n → Finds tokens flags least before (iterate turn n b) after R) :
    Finds tokens flags least before (loop turn b) after R := by
  intro s hs
  rw [eval_loop]
  exact h _ (Nat.lt_succ_of_le hs.length_le) s hs

theorem finds_iterate_again {n : Nat}
    (hturn : Finds tokens flags least before (turn b) mid (Again P))
    (h : ∀ b, P b → Finds tokens flags least mid (iterate turn n b) after R) :
    Finds tokens flags least before (iterate turn (n + 1) b) after R := by
  rw [iterate_succ]
  refine hturn.bind ?_
  rintro _ ⟨b', rfl, hb'⟩
  exact h b' hb'

theorem finds_iterate_done {n : Nat}
    (hturn : Finds tokens flags least before (turn b) after (Done R)) (hn : 0 < n) :
    Finds tokens flags least before (iterate turn n b) after R := by
  obtain ⟨n, rfl⟩ := Nat.exists_eq_succ_of_ne_zero (Nat.ne_of_gt hn)
  rw [Nat.succ_eq_add_one, iterate_succ]
  refine hturn.bind ?_
  rintro _ ⟨b', rfl, hb'⟩
  exact .pure hb'

namespace Turns

theorem iterate (h : Turns tokens flags least turn P before P' mid)
    (hend : ∀ n b, P' b → mid.length < n →
      Finds tokens flags least mid (iterate turn n b) after R) (n : Nat) (b : σ) (hb : P b)
    (hn : before.length < n) : Finds tokens flags least before (iterate turn n b) after R := by
  induction h generalizing n b with
  | none => exact hend n b hb hn
  | one _ hturn hless ih =>
    refine ih (fun n b hb hn => ?_) n b hb hn
    cases n with
    | zero => exact absurd hn (Nat.not_lt_zero _)
    | succ n => exact finds_iterate_again (hturn b hb) fun b' hb' => hend n b' hb' (by omega)

theorem loop (h : Turns tokens flags least turn P before P' mid) (hb : P b)
    (hdone : ∀ b, P' b → Finds tokens flags least mid (turn b) after (Done R)) :
    Finds tokens flags least before (loop turn b) after R :=
  finds_loop fun n hn => h.iterate (fun _ b hb hn => finds_iterate_done (hdone b hb) (by omega)) n b
    hb hn

end Turns

end

variable {shape : SeriesShape} {stop : Kind}

theorem finds_seriesEnd?_none {k : Kind} (hlead : lead before = some k)
    (hk : shape.terminator ≠ some k) :
    Finds tokens flags least before (seriesEnd? shape) before fun stop? => stop? = none := by
  refine finds_nextKind.bind fun k? hk? => ?_
  rw [hk?, hlead]
  refine .pure ?_
  simp [hk]

theorem finds_seriesEnd?_terminator {k : Kind} (hlead : lead before = some k)
    (hk : shape.terminator = some k) :
    Finds tokens flags least before (seriesEnd? shape) before fun stop? =>
      stop? = some .terminator := by
  refine finds_nextKind.bind fun k? hk? => ?_
  rw [hk?, hlead]
  refine .pure ?_
  simp [hk]

theorem finds_seriesEnd?_endOfInput :
    Finds tokens flags least [] (seriesEnd? shape) [] fun stop? => stop? = some .endOfInput := by
  refine finds_nextKind.bind fun k? hk? => ?_
  rw [hk?]
  exact .pure rfl

theorem finds_checkTrailing (t : Token)
    (h : shape.allowTrailing = false → ∀ k, shape.terminator = some k → lead before ≠ some k) :
    Finds tokens flags least before (checkTrailing shape t) before fun _ => True := by
  simp only [checkTrailing]
  split
  next k hallow hk =>
    refine (finds_isNext k).bind fun b hb => ?_
    rw [hb, decide_eq_false (h hallow k hk)]
    exact .pure trivial
  next => exact .pure trivial

theorem finds_comma (hdelimiter : shape.delimiter = some .comma) (hw : w.kind = .comma)
    (hrest : shape.allowTrailing = false → ∀ k, shape.terminator = some k → lead rest ≠ some k)
    (moved : Bool) (s : Series β) :
    Finds tokens flags least (w :: rest) (afterItem shape moved s) rest
      (Again fun s' => s' = s) := by
  simp only [afterItem, hdelimiter]
  refine (finds_accept hw).bind ?_
  rintro _ ⟨t, rfl, -⟩
  exact (finds_checkTrailing t hrest).bind fun _ _ => .pure ⟨s, rfl, rfl⟩

theorem finds_noComma (hdelimiter : shape.delimiter = some .comma)
    (hterminator : shape.terminator = some stop) (hstop : stop ≠ .comma)
    (hlead : lead before = some stop) (moved : Bool) (s : Series β) :
    Finds tokens flags least before (afterItem shape moved s) before
      (Done fun s' => s'.items = s.items) := by
  simp only [afterItem, hdelimiter]
  have hcomma : lead before ≠ some .comma := by
    rw [hlead]
    exact fun h => hstop (Option.some.inj h)
  refine (finds_accept_none hcomma).bind ?_
  rintro _ rfl
  exact (finds_seriesEnd?_terminator hlead hterminator).bind fun _ _ => .pure ⟨_, rfl, rfl⟩

theorem finds_undelimited (hdelimiter : shape.delimiter = none) {moved : Bool}
    (hmoved : moved = true) (s : Series β) :
    Finds tokens flags least before (afterItem shape moved s) before (Again fun s' => s' = s) := by
  simp only [afterItem, hdelimiter, hmoved, if_true]
  exact .pure ⟨s, rfl, rfl⟩

theorem finds_seriesTurn {item : Parser (Option β)} {W : β → Prop} {s : Series β} {k : Kind}
    {Q : Turn (Series β) → Prop} (hlead : lead before = some k) (hk : shape.terminator ≠ some k)
    (hitem : Finds tokens flags least before item mid (Matched W))
    (hnext : ∀ y moved, W y → (before ≠ mid → moved = true) → Finds tokens flags least mid
      (afterItem shape moved { s with items := s.items.push y }) after Q) :
    Finds tokens flags least before (seriesTurn shape item s) after Q := by
  refine (finds_seriesEnd?_none hlead hk).bind ?_
  rintro _ rfl
  refine hitem.watched.bind ?_
  rintro ⟨_, moved⟩ ⟨⟨y, rfl, hy⟩, hmoved⟩
  exact hnext y moved hy hmoved

theorem finds_seriesTurn_terminator {item : Parser (Option β)} (s : Series β)
    (hlead : lead before = some stop) (hterminator : shape.terminator = some stop) :
    Finds tokens flags least before (seriesTurn shape item s) before
      (Done fun s' => s'.items = s.items) := by
  refine (finds_seriesEnd?_terminator hlead hterminator).bind ?_
  rintro _ rfl
  exact .pure ⟨_, rfl, rfl⟩

def Slot.commas (trailing : Bool) : List (List Slot) → List Slot
  | [] => []
  | [part] => part ++ if trailing then [comma?] else []
  | part :: parts => part ++ mark .comma :: commas trailing parts

theorem Slot.commas_true (parts : List (List Slot)) : commas true parts = listed parts := by
  induction parts with
  | nil => rfl
  | cons part parts ih =>
    cases parts with
    | nil => rfl
    | cons next parts =>
      show part ++ mark .comma :: commas true (next :: parts) = listed (part :: next :: parts)
      rw [ih]
      simp [listed, separated]

theorem Slot.commas_false (parts : List (List Slot)) :
    commas false parts = separated .comma parts := by
  induction parts with
  | nil => rfl
  | cons part parts ih =>
    cases parts with
    | nil => simp [commas, separated]
    | cons next parts =>
      show part ++ mark .comma :: commas false (next :: parts) =
        separated .comma (part :: next :: parts)
      rw [ih]
      rfl

def FindsItem (tokens : Array Token) (flags : Flags) (least : Nat) (item : Parser (Option β))
    (bound : Nat) (Follow : List Word → Prop) (slots : γ → List Slot) (erase : β → γ) (x : γ) :
    Prop :=
  ∀ here there, Spells (slots x) here there → here.length < bound → Follow there →
    Finds tokens flags least here item there (Matched fun y => erase y = x)

variable {item : Parser (Option β)} {slots : γ → List Slot} {erase : β → γ} {bound : Nat}

theorem Spells.commas_cons {trailing : Bool} {part : List Slot} {parts : List (List Slot)}
    {words : List Word} (h : Spells (Slot.commas trailing (part :: parts)) words rest) :
    ∃ mid, Spells part words mid ∧ (parts = [] ∧ mid = rest ∨
      ∃ more, mid = .mark .comma :: more ∧ Spells (Slot.commas trailing parts) more rest ∧
        (parts = [] → trailing = true)) := by
  cases parts with
  | cons next parts =>
    obtain ⟨mid, hpart, hmore⟩ := h.split
    obtain ⟨more, rfl, hparts⟩ := Spells.mark_iff.mp hmore
    exact ⟨_, hpart, .inr ⟨more, rfl, hparts, fun hnil => absurd hnil (List.cons_ne_nil _ _)⟩⟩
  | nil =>
    obtain ⟨mid, hpart, hmore⟩ := h.split
    refine ⟨mid, hpart, ?_⟩
    cases trailing with
    | false =>
      cases hmore
      exact .inl ⟨rfl, rfl⟩
    | true =>
      cases hmore with
      | comma hnil => exact .inr ⟨_, rfl, hnil, fun _ => rfl⟩
      | noComma hnil =>
        cases hnil
        exact .inl ⟨rfl, rfl⟩

theorem terminator_ne {k : Kind} (hterminator : shape.terminator = some stop) (hk : k ≠ stop) :
    shape.terminator ≠ some k := by
  rw [hterminator]
  exact fun h => hk (Option.some.inj h).symm

theorem finds_itemComma (hdelimiter : shape.delimiter = some .comma)
    (hterminator : shape.terminator = some stop) {x : γ}
    (hfirst : ∃ k, lead before = some k ∧ k ≠ stop)
    (hitem : Finds tokens flags least before item (.mark .comma :: after)
      (Matched fun y => erase y = x))
    (hrest : shape.allowTrailing = false → lead after ≠ some stop) (s : Series β) :
    Finds tokens flags least before (seriesTurn shape item s) after
      (Again fun s' => s'.items.toList.map erase = s.items.toList.map erase ++ [x]) := by
  obtain ⟨k, hk, hne⟩ := hfirst
  refine finds_seriesTurn hk (terminator_ne hterminator hne) hitem fun y moved hy _ => ?_
  refine (finds_comma hdelimiter rfl (fun hallow j hj => ?_) moved _).weaken ?_
  · rw [← Option.some.inj (hterminator.symm.trans hj)]
    exact hrest hallow
  · rintro _ ⟨s', rfl, rfl⟩
    exact ⟨_, rfl, by simp [hy]⟩

theorem finds_lastItem (hdelimiter : shape.delimiter = some .comma)
    (hterminator : shape.terminator = some stop) (hstop : stop ≠ .comma)
    (hafter : lead after = some stop) {x : γ} (hfirst : ∃ k, lead before = some k ∧ k ≠ stop)
    (hitem : Finds tokens flags least before item after (Matched fun y => erase y = x))
    (s : Series β) :
    Finds tokens flags least before (seriesTurn shape item s) after
      (Done fun s' => s'.items.toList.map erase = s.items.toList.map erase ++ [x]) := by
  obtain ⟨k, hk, hne⟩ := hfirst
  refine finds_seriesTurn hk (terminator_ne hterminator hne) hitem fun y moved hy _ => ?_
  refine (finds_noComma hdelimiter hterminator hstop hafter moved _).weaken ?_
  rintro _ ⟨s', rfl, hs'⟩
  exact ⟨s', rfl, by simp [hs', hy]⟩

theorem finds_commaTurns (hdelimiter : shape.delimiter = some .comma)
    (hterminator : shape.terminator = some stop) (hstop : stop ≠ .comma)
    (hafter : lead after = some stop) {xs : List γ}
    (hfirst : ∀ x ∈ xs, ∀ here there, Spells (slots x) here there →
      ∃ k, lead here = some k ∧ k ≠ stop)
    (hitem : ∀ x ∈ xs, FindsItem tokens flags least item bound
      (fun there => lead there = some .comma ∨ lead there = some stop) slots erase x)
    {here : List Word} (hspells : Spells (Slot.commas shape.allowTrailing (xs.map slots)) here after)
    (hbound : here.length < bound) (s : Series β) (n : Nat) (hn : here.length < n) :
    Finds tokens flags least here (iterate (seriesTurn shape item) n s) after
      fun s' => s'.items.toList.map erase = s.items.toList.map erase ++ xs := by
  induction xs generalizing here s n with
  | nil =>
    cases hspells
    refine (finds_iterate_done (finds_seriesTurn_terminator s hafter hterminator)
      (by omega)).weaken ?_
    intro s' hs'
    rw [hs', List.append_nil]
  | cons x xs ih =>
    obtain ⟨hx, hxs⟩ := List.forall_mem_cons.mp hitem
    obtain ⟨hx', hxs'⟩ := List.forall_mem_cons.mp hfirst
    obtain ⟨n, rfl⟩ := Nat.exists_eq_succ_of_ne_zero (Nat.ne_of_gt (Nat.zero_lt_of_lt hn))
    obtain ⟨there, hspells', hlast | hmore⟩ := hspells.commas_cons
    · obtain ⟨hnil, rfl⟩ := hlast
      obtain rfl := List.map_eq_nil_iff.mp hnil
      exact finds_iterate_done (finds_lastItem hdelimiter hterminator hstop hafter
        (hx' here there hspells') (hx here there hspells' hbound (.inr hafter)) s) (Nat.succ_pos n)
    · obtain ⟨rest, rfl, hrest, htrailing⟩ := hmore
      have hlength := hspells'.length_le
      rw [List.length_cons] at hlength
      -- A comma that is not allowed to be the last has another item behind it.
      have hlead : shape.allowTrailing = false → lead rest ≠ some stop := by
        intro hallow
        cases xs with
        | nil => exact absurd (hallow.symm.trans (htrailing rfl)) Bool.false_ne_true
        | cons next xs =>
          obtain ⟨_, hnext, -⟩ := hrest.commas_cons
          obtain ⟨k, hk, hne⟩ := (List.forall_mem_cons.mp hxs').1 _ _ hnext
          rw [hk]
          exact fun h => hne (Option.some.inj h)
      refine finds_iterate_again (finds_itemComma hdelimiter hterminator (hx' here _ hspells')
        (hx here _ hspells' hbound (.inl rfl)) hlead s) fun s' hs' => ?_
      refine (ih hxs' hxs hrest (by omega) s' n (by omega)).weaken fun s'' hs'' => ?_
      rw [hs'', hs', List.append_assoc, List.singleton_append]

theorem finds_commas (shape : SeriesShape) (hdelimiter : shape.delimiter = some .comma)
    (hterminator : shape.terminator = some stop) (hstop : stop ≠ .comma)
    (hafter : lead after = some stop) {xs : List γ}
    (hfirst : ∀ x ∈ xs, ∀ here there, Spells (slots x) here there →
      ∃ k, lead here = some k ∧ k ≠ stop)
    (hitem : ∀ x ∈ xs, FindsItem tokens flags least item bound
      (fun there => lead there = some .comma ∨ lead there = some stop) slots erase x)
    (hspells : Spells (Slot.commas shape.allowTrailing (xs.map slots)) before after)
    (hbound : before.length < bound) :
    Finds tokens flags least before (items shape item) after fun ys => ys.map erase = xs := by
  refine Finds.bind (finds_loop fun n hn =>
    finds_commaTurns hdelimiter hterminator hstop hafter hfirst hitem hspells hbound {} n hn) ?_
  exact fun s hs => .pure hs

def Ends (shape : SeriesShape) (after : List Word) : Prop :=
  after = [] ∨ ∃ k, lead after = some k ∧ shape.terminator = some k

theorem finds_seriesTurn_end (s : Series β) (hend : Ends shape before) :
    Finds tokens flags least before (seriesTurn shape item s) before
      (Done fun s' => s'.items = s.items) := by
  rcases hend with rfl | ⟨k, hlead, hk⟩
  · refine finds_seriesEnd?_endOfInput.bind ?_
    rintro _ rfl
    exact .pure ⟨_, rfl, rfl⟩
  · exact finds_seriesTurn_terminator s hlead hk

theorem finds_runTurns {Follow : List Word → Prop} (hdelimiter : shape.delimiter = none)
    (hend : Ends shape after) (hafter : Follow after) {xs : List γ}
    (hfirst : ∀ x ∈ xs, ∀ here there, Spells (slots x) here there →
      Follow here ∧ there.length < here.length ∧
        ∃ k, lead here = some k ∧ shape.terminator ≠ some k)
    (hitem : ∀ x ∈ xs, FindsItem tokens flags least item bound Follow slots erase x)
    {here : List Word} (hspells : Spells (xs.flatMap slots) here after)
    (hbound : here.length < bound) (s : Series β) (n : Nat) (hn : here.length < n) :
    Finds tokens flags least here (iterate (seriesTurn shape item) n s) after
      fun s' => s'.items.toList.map erase = s.items.toList.map erase ++ xs := by
  induction xs generalizing here s n with
  | nil =>
    cases hspells
    refine (finds_iterate_done (finds_seriesTurn_end s hend) (by omega)).weaken ?_
    intro s' hs'
    rw [hs', List.append_nil]
  | cons x xs ih =>
    obtain ⟨hx, hxs⟩ := List.forall_mem_cons.mp hitem
    obtain ⟨hx', hxs'⟩ := List.forall_mem_cons.mp hfirst
    obtain ⟨n, rfl⟩ := Nat.exists_eq_succ_of_ne_zero (Nat.ne_of_gt (Nat.zero_lt_of_lt hn))
    rw [List.flatMap_cons] at hspells
    obtain ⟨there, h₁, h₂⟩ := hspells.split
    obtain ⟨-, hless, k, hk, hk'⟩ := hx' here there h₁
    -- What follows the item is the next one, or else what follows the whole run.
    have hfollow : Follow there := by
      cases xs with
      | nil =>
        cases h₂
        exact hafter
      | cons x' xs =>
        rw [List.flatMap_cons] at h₂
        obtain ⟨next, h₃, -⟩ := h₂.split
        exact ((List.forall_mem_cons.mp hxs').1 _ _ h₃).1
    have hturn : Finds tokens flags least here (seriesTurn shape item s) there
        (Again fun s' => s'.items.toList.map erase = s.items.toList.map erase ++ [x]) := by
      refine finds_seriesTurn hk hk' (hx here there h₁ hbound hfollow) fun y moved hy hmoved => ?_
      have hne : here ≠ there := fun h => Nat.lt_irrefl _ (h ▸ hless)
      refine (finds_undelimited hdelimiter (hmoved hne) _).weaken ?_
      rintro _ ⟨s', rfl, rfl⟩
      exact ⟨_, rfl, by simp [hy]⟩
    refine finds_iterate_again hturn fun s' hs' => (ih hxs' hxs h₂ (by omega) s' n
      (by omega)).weaken fun s'' hs'' => ?_
    rw [hs'', hs', List.append_assoc, List.singleton_append]

theorem finds_run (shape : SeriesShape) (Follow : List Word → Prop)
    (hdelimiter : shape.delimiter = none)
    (hend : Ends shape after) (hafter : Follow after) {xs : List γ}
    (hfirst : ∀ x ∈ xs, ∀ here there, Spells (slots x) here there →
      Follow here ∧ there.length < here.length ∧
        ∃ k, lead here = some k ∧ shape.terminator ≠ some k)
    (hitem : ∀ x ∈ xs, FindsItem tokens flags least item bound Follow slots erase x)
    (hspells : Spells (xs.flatMap slots) before after) (hbound : before.length < bound) :
    Finds tokens flags least before (items shape item) after fun ys => ys.map erase = xs := by
  refine Finds.bind (finds_loop fun n hn =>
    finds_runTurns hdelimiter hend hafter hfirst hitem hspells hbound {} n hn) ?_
  exact fun s hs => .pure hs

end Reparse
