import Reparse.Proofs.Parser.Builds

/-!
# Series of nodes

The items of a series are built one behind the other, whatever stands between them. A series that
recovers divides all tokens it goes over: into the runs of its items and skipped runs.
-/

namespace Reparse

open Reparse.Parser

variable {β : Type} {tokens : Array Token} {flags : Flags} {a b : Trail} {n : Nat}
  {starts : Nat → Prop} {view : β → Outline Info} {item : Parser (Option β)}

theorem runs_seriesEnd? (shape : SeriesShape) :
    Runs tokens flags a (seriesEnd? shape) fun stop? b => b = a ∧
      match stop? with
      | none => ∃ t, a.next? tokens = some t ∧ shape.terminator ≠ some t.kind
      | some _ => a.next? tokens = none ∨
        ∃ t, a.next? tokens = some t ∧ shape.terminator = some t.kind := by
  refine runs_nextKind.bind fun k? b h => ?_
  obtain ⟨rfl, rfl⟩ := h
  cases b.next? tokens with
  | none => exact .pure ⟨rfl, .inl rfl⟩
  | some t =>
    by_cases hterminator : shape.terminator = some t.kind
    · simp only [Option.map_some, hterminator, if_true]
      exact .pure ⟨rfl, .inr ⟨t, rfl, rfl⟩⟩
    · simp only [Option.map_some, hterminator, if_false]
      exact .pure ⟨rfl, t, rfl, hterminator⟩

theorem runs_checkTrailing (shape : SeriesShape) {delimiter : Token}
    (h : a.next? tokens = some delimiter) :
    Runs tokens flags (a.past tokens) (checkTrailing shape delimiter) fun _ b =>
      Advances tokens a b [] [] ∧ a.cursor < b.cursor := by
  have hpast : Advances tokens a (a.past tokens) [] [] := .past h
  have hlt : a.cursor < (a.past tokens).cursor := Nat.lt_succ_of_le (le_nextReal tokens a.cursor)
  unfold checkTrailing
  split
  · refine (runs_isNext _).bind fun x b hb => ?_
    obtain ⟨rfl, -⟩ := hb
    split
    · refine (runs_report _ _ _).weaken fun _ b hb => ?_
      subst hb
      have hmem := mem_stretch (le_nextReal tokens a.cursor) (Nat.lt_succ_self _) h
      exact ⟨.of_walk ((Walk.past h).stray hmem) rfl, hlt⟩
    · exact .pure ⟨hpast, hlt⟩
  · exact .pure ⟨hpast, hlt⟩

def Strings (tokens : Array Token) (a : Trail) (view : β → Outline Info) (s : Series β)
    (b : Trail) : Prop :=
  Advances tokens a b [] (s.items.toList.map view)

theorem Strings.push {s : Series β} {x : β} {c : Trail} (h : Strings tokens a view s b)
    (hx : Built tokens b c (view x)) :
    Strings tokens a view { s with items := s.items.push x } c := by
  rw [Strings, Array.toList_push, List.map_append]
  exact h.trans hx.advances

theorem runs_afterItem (shape : SeriesShape) {moved : Bool} {s : Series β} {c : Trail}
    (hs : Strings tokens a view s c) (hmoved : b.cursor < c.cursor) :
    Runs tokens flags c (afterItem shape moved s)
      (TurnsTo b.cursor (Strings tokens a view) (Strings tokens a view)) := by
  unfold afterItem
  split
  · split
    · exact .pure ⟨hs, hmoved⟩
    · exact .pure hs
  next d _ =>
    refine (runs_accept d).bind fun t? e h => ?_
    cases t? with
    | none =>
      obtain ⟨rfl, -⟩ := h
      refine (runs_seriesEnd? shape).bind fun stop? f hf => .pure ?_
      obtain ⟨rfl, -⟩ := hf
      exact hs
    | some t =>
      obtain ⟨ht, -, rfl⟩ := h
      refine (runs_checkTrailing shape ht).bind fun _ f hf => .pure ?_
      exact ⟨hs.next hf.1, Nat.lt_trans hmoved hf.2⟩

theorem runs_series {shape : SeriesShape} (hshape : shape.resync = none)
    (hitem : Builds tokens flags n starts view item) (hn : n ≤ a.cursor) :
    Runs tokens flags a (series shape item) (Strings tokens a view) := by
  have hset : shape.resumeSet? = none := by rw [SeriesShape.resumeSet?, hshape]; rfl
  refine runs_loop (I := Strings tokens a view) (fun s b hs => ?_) (.refl a)
  have hb : n ≤ b.cursor := Nat.le_trans hn (Advances.le hs)
  refine (runs_seriesEnd? shape).bind fun stop? c hc => ?_
  obtain ⟨rfl, -⟩ := hc
  cases stop? with
  | some stop => exact .pure hs
  | none =>
    refine (hitem c hb).watched.bind fun x d hx => ?_
    obtain ⟨x?, moved⟩ := x
    cases x? with
    | none =>
      obtain ⟨⟨rfl, -⟩, -⟩ := hx
      simp only [hset]
      exact .pure hs
    | some x =>
      obtain ⟨⟨hbuilt, -⟩, -⟩ := hx
      exact runs_afterItem shape (hs.push hbuilt) hbuilt.lt

theorem makes_items {shape : SeriesShape} (hshape : shape.resync = none)
    (hitem : Builds tokens flags n starts view item) :
    Makes tokens flags n (fun xs => xs.map view) (items shape item) :=
  fun _ ha => (runs_series hshape hitem ha).bind fun _ _ hs => .pure hs

theorem runs_skipTo (set : KindSet) : Runs tokens flags a (skipTo set) fun found b =>
    ∃ run, Walk tokens a b [] [] {} ∧ reals tokens a.cursor = run ++ reals tokens b.cursor ∧
      (∀ t ∈ run, t.kind ∉ set) ∧
      if found = true then ∃ t, b.next? tokens = some t ∧ t.kind ∈ set
      else b.next? tokens = none := by
  refine runs_loop (I := fun _ b => ∃ run, Walk tokens a b [] [] {} ∧
    reals tokens a.cursor = run ++ reals tokens b.cursor ∧ ∀ t ∈ run, t.kind ∉ set)
    (fun _ b hb => ?_) ⟨[], .refl a, rfl, fun _ ht => absurd ht List.not_mem_nil⟩
  obtain ⟨run, hwalk, hreals, hrun⟩ := hb
  refine runs_nextKind.bind fun k? c hc => ?_
  obtain ⟨rfl, rfl⟩ := hc
  cases ht : c.next? tokens with
  | none => exact .pure ⟨run, hwalk, hreals, hrun, ht⟩
  | some t =>
    dsimp only [Option.map_some]
    split
    next hset => exact .pure ⟨run, hwalk, hreals, hrun, t, ht, hset⟩
    next hset =>
      refine (runs_consume_next ht).bind fun t? d hd => .pure ?_
      obtain ⟨rfl, rfl⟩ := hd
      refine ⟨⟨run ++ [t], hwalk.trans (.past ht), ?_, ?_⟩, ?_⟩
      · rw [hreals, reals_of_next ht, List.append_assoc]
        rfl
      · intro u hu
        rcases List.mem_append.mp hu with hu | hu
        · exact hrun u hu
        · rwa [List.mem_singleton.mp hu]
      · exact Nat.lt_succ_of_le (le_nextReal tokens c.cursor)

def Findings.skipped (code : Code) (t : Token) : Findings :=
  if code = .strayInput then { reports := [.stray code t], input := [t] }
  else { reports := [.stray code t], strays := [t] }

def Code.isSkip (c : Code) : Bool := c = .strayToken || c = .strayInput

theorem Walk.skipped {code : Code} (hcode : code.isSkip = true) {t : Token}
    (ht : a.next? tokens = some t) :
    Walk tokens a ((a.past tokens).reported (.stray code t)) [] [] (.skipped code t) := by
  have hpast : Walk tokens a (a.past tokens) [] [] {} := .past ht
  rw [Code.isSkip, Bool.or_eq_true, decide_eq_true_eq, decide_eq_true_eq] at hcode
  rcases hcode with rfl | rfl
  · exact hpast.stray (mem_stretch (le_nextReal tokens a.cursor) (Nat.lt_succ_self _) ht)
  · exact hpast.trans (.strayInput (a.past tokens) t)

theorem runs_skipStray (set : KindSet) {code : Code} (hcode : code.isSkip = true) {t : Token}
    (ht : a.next? tokens = some t) : Runs tokens flags a (skipStray set code) fun _ b =>
      ∃ run, Walk tokens a b [] [] (.skipped code t) ∧
        reals tokens a.cursor = t :: (run ++ reals tokens b.cursor) ∧
        Skips set run (reals tokens b.cursor) ∧ a.cursor < b.cursor := by
  have hfirst := reals_of_next ht
  refine (runs_consume_next ht).bind fun t? b hb => ?_
  obtain ⟨rfl, rfl⟩ := hb
  refine (runs_reportStray t code).bind fun _ b hb => ?_
  subst hb
  have hwalk := Walk.skipped hcode ht
  refine (runs_skipTo set).bind fun found c hc => ?_
  obtain ⟨run, hrest, hreals, hrun, hfound⟩ := hc
  have hcursor : ((a.past tokens).reported (.stray code t)).cursor =
      nextReal tokens a.cursor + 1 := rfl
  have hskip := hwalk.next hrest
  have hlt : a.cursor < c.cursor := by
    have hle := hrest.le
    have hle' := le_nextReal tokens a.cursor
    omega
  rw [hcursor] at hreals
  rw [hreals] at hfirst
  cases found with
  | false =>
    have hend : reals tokens c.cursor = [] := reals_of_next_none hfound
    refine .pure ⟨run, hskip, hfirst, ?_, hlt⟩
    rw [hend]
    exact .toEnd hrun
  | true =>
    obtain ⟨u, hu, hset⟩ := hfound
    rw [if_pos rfl]
    refine (runs_accept .semicolon).bind fun t? d hd => .pure ?_
    cases t? with
    | none =>
      obtain ⟨rfl, hne⟩ := hd
      refine ⟨run, hskip, hfirst, ?_, hlt⟩
      rw [reals_of_next hu]
      refine .before hrun hset fun hkind => hne ?_
      rw [hu, Option.map_some, hkind]
    | some v =>
      obtain ⟨hv, hkind, rfl⟩ := hd
      obtain rfl : u = v := Option.some.inj (hu.symm.trans hv)
      refine ⟨run ++ [u], hskip.next (.past hu), ?_, .through hrun hset hkind, ?_⟩
      · rw [hfirst, reals_of_next hu, List.append_assoc]
        rfl
      · exact Nat.lt_trans hlt (Nat.lt_succ_of_le (le_nextReal tokens c.cursor))

def Finished (tokens : Array Token) (terminator : Option Kind) (b : Trail) : Prop :=
  b.next? tokens = none ∨ ∃ t, b.next? tokens = some t ∧ terminator = some t.kind

/-- The tokens that a recovering series went over, as far as it has been read. -/
def Recovers (tokens : Array Token) (starts : Kind → Bool) (set : KindSet) (code : Code) (a : Trail)
    (view : β → Outline Info) (xs : List β) (b : Trail) : Prop :=
  ∃ f strays, Walk tokens a b [] (xs.map view) f ∧
    Divided starts set (xs.map view) strays (reals tokens a.cursor) (reals tokens b.cursor) ∧
    (f.input = if code = .strayInput then strays else []) ∧
    ∀ t ∈ strays, Report.stray code t ∈ f.reports

section

variable {starts : Kind → Bool} {set : KindSet} {code : Code} {xs : List β} {c : Trail}

theorem Recovers.push {x : β} (h : Recovers tokens starts set code a view xs b)
    (hx : Built tokens b c (view x)) : Recovers tokens starts set code a view (xs ++ [x]) c := by
  obtain ⟨f, strays, hwalk, hdivided, hinput, hstrays⟩ := h
  obtain ⟨e, run, he, hfirst, hlast, hreals⟩ := hx.exists_run
  obtain ⟨g, hg, hnone⟩ := hx.advances
  refine ⟨f ++ g, strays, ?_, ?_, ?_, fun t ht => List.mem_append_left _ (hstrays t ht)⟩
  · rw [List.map_append]
    exact hwalk.trans hg
  · rw [hreals] at hdivided
    have hnode := hdivided.trans (.node run he hfirst hlast .done)
    rw [List.append_nil] at hnode
    rwa [List.map_append]
  · change f.input ++ g.input = _
    rw [hnone, List.append_nil, hinput]

theorem Recovers.skip {t : Token} {run : List Token}
    (h : Recovers tokens starts set code a view xs b)
    (hwalk : Walk tokens b c [] [] (.skipped code t)) (hstart : starts t.kind = false)
    (hreals : reals tokens b.cursor = t :: (run ++ reals tokens c.cursor))
    (hskips : Skips set run (reals tokens c.cursor)) :
    Recovers tokens starts set code a view xs c := by
  obtain ⟨f, strays, hwalk', hdivided, hinput, hstrays⟩ := h
  refine ⟨f ++ .skipped code t, strays ++ [t], ?_, ?_, ?_, ?_⟩
  · have htrans := hwalk'.trans hwalk
    rwa [List.append_nil] at htrans
  · rw [hreals] at hdivided
    have htrans := hdivided.trans (.skipped hstart hskips .done)
    rwa [List.append_nil] at htrans
  · change f.input ++ (Findings.skipped code t).input = _
    rw [hinput, Findings.skipped]
    split <;> rfl
  · have hreport : Report.stray code t ∈ (Findings.skipped code t).reports := by
      rw [Findings.skipped]
      split <;> exact List.mem_singleton.mpr rfl
    intro u hu
    rcases List.mem_append.mp hu with hu | hu
    · exact List.mem_append_left _ (hstrays u hu)
    · rw [List.mem_singleton.mp hu]
      exact List.mem_append_right _ hreport

theorem runs_recovering {shape : SeriesShape} (hdelimiter : shape.delimiter = none)
    (hset : shape.resumeSet? = some set) (hstray : shape.stray = code)
    (hcode : code.isSkip = true)
    (hitem : Builds tokens flags n (Leads tokens starts) view item) (hn : n ≤ a.cursor) :
    Runs tokens flags a (items shape item) fun xs b =>
      Recovers tokens starts set code a view xs b ∧ Finished tokens shape.terminator b := by
  have hempty : Recovers tokens starts set code a view [] a := by
    refine ⟨{}, [], .refl a, .done, ?_, fun _ ht => absurd ht List.not_mem_nil⟩
    split <;> rfl
  refine (runs_loop
    (I := fun s b => Recovers tokens starts set code a view s.items.toList b)
    (Q := fun s b => Recovers tokens starts set code a view s.items.toList b ∧
      Finished tokens shape.terminator b) (fun s b hs => ?_) hempty).bind fun s b hs => .pure hs
  have hb : n ≤ b.cursor := by
    obtain ⟨f, strays, hwalk, -⟩ := hs
    exact Nat.le_trans hn hwalk.le
  refine (runs_seriesEnd? shape).bind fun stop? c hc => ?_
  obtain ⟨rfl, hstop⟩ := hc
  cases stop? with
  | some stop => exact .pure ⟨hs, hstop⟩
  | none =>
    obtain ⟨t, ht, -⟩ := hstop
    refine (hitem c hb).watched.bind fun x d hx => ?_
    obtain ⟨x?, moved⟩ := x
    cases x? with
    | none =>
      obtain ⟨⟨rfl, hnot⟩, -⟩ := hx
      simp only [hset, hstray]
      refine (runs_skipStray set hcode ht).bind fun _ e he => .pure ?_
      obtain ⟨run, hwalk, hreals, hskips, hlt⟩ := he
      refine ⟨hs.skip hwalk ?_ hreals hskips, hlt⟩
      exact Bool.eq_false_iff.mpr fun hkind => hnot ((leads_iff ht).mpr hkind)
    | some x =>
      obtain ⟨⟨hbuilt, -⟩, hmoved⟩ := hx
      have hlt := hbuilt.lt
      have htrue : moved = true := hmoved.trans (decide_eq_true (Nat.ne_of_gt hlt))
      subst htrue
      have hpush := hs.push hbuilt
      rw [← Array.toList_push] at hpush
      simp only [afterItem, hdelimiter, if_true]
      exact .pure ⟨hpush, hlt⟩

end

end Reparse
