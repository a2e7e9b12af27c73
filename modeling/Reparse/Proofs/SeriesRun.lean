import Reparse.Proofs.NoMatch
import Reparse.Proofs.Parser.SeriesSteps

/-!
# Runs of series

A series whose item decides comes to an end, whatever its shape. The real tokens it consumes fall
into portions: items, delimiters behind items, and runs of tokens that were recovered from. The
portions tell what is reported, and the token behind the last of them why the series ends there.
-/

namespace Reparse

open Reparse.Parser

variable {β : Type} {c : ParseContext} {I : ParseState → Prop} {shape : SeriesShape}
  {item : Parser (Option β)} {s s' last : ParseState} {ps : List (Portion β)} {stop : SeriesEnd}

/-- A run of a series from a state to its last one, portion by portion. -/
inductive SeriesRun (shape : SeriesShape) (item : Parser (Option β)) (c : ParseContext) :
    ParseState → List (Portion β) → SeriesEnd → ParseState → Prop
  | ended {s : ParseState} {stop : SeriesEnd} :
      shape.endAt? (s.trail.next? c.tokens) = some stop → SeriesRun shape item c s [] stop s
  | aborted {s : ParseState} :
      shape.endAt? (s.trail.next? c.tokens) = none → shape.resync = none →
      SeriesRun shape item c s [] .aborted s
  | recovered {s s' last : ParseState} {t : Token} {run : List Token} {ps : List (Portion β)}
      {stop : SeriesEnd} :
      SeriesStep shape item c s (.recovered t run) s' → SeriesRun shape item c s' ps stop last →
      SeriesRun shape item c s (.recovered t run :: ps) stop last
  | item {s s' last : ParseState} {x : β} {run : List Token} {ps : List (Portion β)}
      {stop : SeriesEnd} :
      shape.delimiter = none → SeriesStep shape item c s (.item x run) s' →
      SeriesRun shape item c s' ps stop last →
      SeriesRun shape item c s (.item x run :: ps) stop last
  | delimited {s s₁ s' last : ParseState} {x : β} {run : List Token} {t : Token}
      {ps : List (Portion β)} {stop : SeriesEnd} :
      SeriesStep shape item c s (.item x run) s₁ → SeriesStep shape item c s₁ (.delimiter t) s' →
      SeriesRun shape item c s' ps stop last →
      SeriesRun shape item c s (.item x run :: .delimiter t :: ps) stop last
  | last {s s' : ParseState} {x : β} {run : List Token} {delimiter : Kind} :
      SeriesStep shape item c s (.item x run) s' → shape.delimiter = some delimiter →
      (s'.trail.next? c.tokens).map Token.kind ≠ some delimiter →
      SeriesRun shape item c s [.item x run]
        ((shape.endAt? (s'.trail.next? c.tokens)).getD .aborted) s'

inductive Alternates : List (Portion β) → Prop
  | none : Alternates []
  | item {x : β} {run : List Token} : Alternates [.item x run]
  | delimited {x : β} {run : List Token} {t : Token} {ps : List (Portion β)} :
      Alternates ps → Alternates (.item x run :: .delimiter t :: ps)

namespace SeriesShape

variable {next? : Option Token}

theorem endAt?_eq_none (h : shape.endAt? next? = none) :
    ∃ t, next? = some t ∧ shape.terminator ≠ some t.kind := by
  cases next? with
  | none => cases h
  | some t =>
    refine ⟨t, rfl, fun hterminator => ?_⟩
    rw [endAt?, if_pos hterminator] at h
    cases h

theorem stop_eq_terminator_iff :
    (shape.endAt? next?).getD .aborted = .terminator ↔
      ∃ t, next? = some t ∧ shape.terminator = some t.kind := by
  cases next? with
  | none => simp [endAt?]
  | some t => by_cases h : shape.terminator = some t.kind <;> simp [endAt?, h]

theorem stop_eq_endOfInput_iff :
    (shape.endAt? next?).getD .aborted = .endOfInput ↔ next? = none := by
  cases next? with
  | none => simp [endAt?]
  | some t => by_cases h : shape.terminator = some t.kind <;> simp [endAt?, h]

theorem stop_eq_aborted_iff :
    (shape.endAt? next?).getD .aborted = .aborted ↔ shape.endAt? next? = none := by
  cases next? with
  | none => simp [endAt?]
  | some t => by_cases h : shape.terminator = some t.kind <;> simp [endAt?, h]

end SeriesShape

theorem head?_reals (tokens : Array Token) (i : Nat) :
    (reals tokens i).head? = tokens[nextReal tokens i]? := by
  cases ht : tokens[nextReal tokens i]? with
  | none => rw [reals_of_next_none ht, List.head?_nil]
  | some t => rw [reals_of_next ht, List.head?_cons]

theorem Skips.outside {ends : KindSet} {run rest : List Token} (h : Skips ends run rest) :
    ∀ t ∈ run, t.kind ∉ ends ∨ t.kind = .semicolon := by
  intro t ht
  cases h with
  | toEnd hout => exact .inl (hout t ht)
  | before hout _ _ => exact .inl (hout t ht)
  | through hout _ hkind =>
    rcases List.mem_append.mp ht with hrun | hlast
    · exact .inl (hout t hrun)
    · obtain rfl := List.mem_singleton.mp hlast
      exact .inr hkind

theorem SeriesShape.mem_resumeSet? {set : KindSet} {k : Kind} (h : shape.resumeSet? = some set)
    (hk : shape.terminator = some k) : k ∈ set := by
  obtain ⟨resync, -, rfl⟩ := Option.map_eq_some_iff.mp h
  rw [hk]
  exact KindSet.mem_insert.mpr (.inl rfl)

namespace SeriesStep

variable {p : Portion β}

theorem consumes (h : SeriesStep shape item c s p s') :
    reals c.tokens s.cursor = p.tokens ++ reals c.tokens s'.cursor := by
  cases h with
  | item _ _ _ hreals => exact hreals
  | delimiter _ hreals _ => exact hreals
  | recovered _ _ _ hreals _ _ => exact hreals

theorem tokens_ne_nil (h : SeriesStep shape item c s p s') : p.tokens ≠ [] := by
  cases h with
  | item _ _ hsome _ => exact hsome
  | delimiter _ _ _ => exact List.cons_ne_nil _ _
  | recovered _ _ _ _ _ _ => exact List.cons_ne_nil _ _

theorem lt_size (h : SeriesStep shape item c s p s') : s.cursor < c.tokens.size := by
  have hsome : reals c.tokens s.cursor ≠ [] := by
    rw [h.consumes]
    exact List.append_ne_nil_of_left_ne_nil h.tokens_ne_nil _
  obtain ⟨t, ht⟩ := Option.ne_none_iff_exists'.mp (mt reals_eq_nil_iff.mpr hsome)
  exact Ahead.lt_size ⟨t, ht⟩

theorem head?_tokens (h : SeriesStep shape item c s p s') :
    p.tokens.head? = s.trail.next? c.tokens := by
  have hhead : (reals c.tokens s.cursor).head? = s.trail.next? c.tokens := head?_reals ..
  rw [← hhead, h.consumes, List.head?_append_of_ne_nil _ h.tokens_ne_nil]

theorem sparesTerminator (h : SeriesStep shape item c s p s')
    (hdelimiter : ∀ k, shape.delimiter = some k → shape.terminator ≠ some k)
    (hsemicolon : shape.resync ≠ none → shape.terminator ≠ some .semicolon) :
    p.SparesTerminator shape := by
  have hhead := h.head?_tokens
  cases h with
  | item hgoes _ _ _ =>
    obtain ⟨t, ht, hterminator⟩ := SeriesShape.endAt?_eq_none hgoes
    refine ⟨fun u hu => ?_, fun hvalue => absurd hvalue (Option.some_ne_none _)⟩
    rw [hhead, ht] at hu
    cases hu
    exact hterminator
  | @delimiter _ t hkind _ _ =>
    have hspared : ∀ u ∈ [t], shape.terminator ≠ some u.kind := by
      intro u hu
      obtain rfl := List.mem_singleton.mp hu
      exact hdelimiter _ hkind
    exact ⟨fun u hu => hspared u (List.mem_of_mem_head? hu), fun _ => hspared⟩
  | @recovered _ t run set hfirst _ hset _ hskips _ =>
    have hresync : shape.resync ≠ none := fun hnone => by
      rw [SeriesShape.resumeSet?, hnone] at hset
      cases hset
    -- The run ends before the terminator, which is in the set, and only a semicolon may be passed.
    have hspared : ∀ u ∈ t :: run, shape.terminator ≠ some u.kind := by
      intro u hu hterminator
      rcases List.mem_cons.mp hu with rfl | hrun
      · exact hfirst hterminator
      · rcases hskips.outside u hrun with hout | hkind
        · exact hout (SeriesShape.mem_resumeSet? hset hterminator)
        · rw [hkind] at hterminator
          exact hsemicolon hresync hterminator
    exact ⟨fun u hu => hspared u (List.mem_of_mem_head? hu), fun _ => hspared⟩

theorem resync_ne_none {t : Token} {run : List Token}
    (h : SeriesStep shape item c s (.recovered t run) s') : shape.resync ≠ none := by
  intro hnone
  cases h with
  | recovered _ _ hset _ _ _ =>
    rw [SeriesShape.resumeSet?, hnone] at hset
    cases hset

end SeriesStep

namespace SeriesRun

theorem consumes (h : SeriesRun shape item c s ps stop last) :
    reals c.tokens s.cursor = ps.flatMap Portion.tokens ++ reals c.tokens last.cursor := by
  induction h with
  | ended _ => rfl
  | aborted _ _ => rfl
  | recovered hstep _ ih => rw [hstep.consumes, ih, List.flatMap_cons, List.append_assoc]
  | item _ hstep _ ih => rw [hstep.consumes, ih, List.flatMap_cons, List.append_assoc]
  | delimited hstep hstep' _ ih =>
    rw [hstep.consumes, hstep'.consumes, ih, List.flatMap_cons, List.flatMap_cons,
      List.append_assoc, List.append_assoc]
  | last hstep _ _ => rw [hstep.consumes, List.flatMap_singleton]

theorem sparesTerminator (h : SeriesRun shape item c s ps stop last)
    (hdelimiter : ∀ k, shape.delimiter = some k → shape.terminator ≠ some k)
    (hsemicolon : shape.resync ≠ none → shape.terminator ≠ some .semicolon) :
    ∀ p ∈ ps, p.SparesTerminator shape := by
  induction h with
  | ended _ => exact List.forall_mem_nil _
  | aborted _ _ => exact List.forall_mem_nil _
  | recovered hstep _ ih =>
    exact List.forall_mem_cons.mpr ⟨hstep.sparesTerminator hdelimiter hsemicolon, ih⟩
  | item _ hstep _ ih =>
    exact List.forall_mem_cons.mpr ⟨hstep.sparesTerminator hdelimiter hsemicolon, ih⟩
  | delimited hstep hstep' _ ih =>
    exact List.forall_mem_cons.mpr ⟨hstep.sparesTerminator hdelimiter hsemicolon,
      List.forall_mem_cons.mpr ⟨hstep'.sparesTerminator hdelimiter hsemicolon, ih⟩⟩
  | last hstep _ _ =>
    exact List.forall_mem_singleton.mpr (hstep.sparesTerminator hdelimiter hsemicolon)

theorem alternates (h : SeriesRun shape item c s ps stop last) (hresync : shape.resync = none)
    (hdelimiter : shape.delimiter ≠ none) : Alternates ps := by
  induction h with
  | ended _ => exact .none
  | aborted _ _ => exact .none
  | recovered hstep _ _ => exact absurd hresync hstep.resync_ne_none
  | item hnone _ _ _ => exact absurd hnone hdelimiter
  | delimited _ _ _ ih => exact .delimited ih
  | last _ _ _ => exact .item

theorem items_alone (h : SeriesRun shape item c s ps stop last) (hresync : shape.resync = none)
    (hdelimiter : shape.delimiter = none) : ∀ p ∈ ps, p.value?.isSome = true := by
  induction h with
  | ended _ => exact List.forall_mem_nil _
  | aborted _ _ => exact List.forall_mem_nil _
  | recovered hstep _ _ => exact absurd hresync hstep.resync_ne_none
  | item _ _ _ ih => exact List.forall_mem_cons.mpr ⟨rfl, ih⟩
  | delimited _ hstep _ _ =>
    cases hstep with
    | delimiter hkind _ _ => cases hdelimiter.symm.trans hkind
  | last _ hsome _ => cases hdelimiter.symm.trans hsome

theorem stop_eq (h : SeriesRun shape item c s ps stop last) :
    stop = (shape.endAt? (last.trail.next? c.tokens)).getD .aborted := by
  induction h with
  | ended hstop => rw [hstop, Option.getD_some]
  | aborted hgoes _ => rw [hgoes, Option.getD_none]
  | recovered _ _ ih => exact ih
  | item _ _ _ ih => exact ih
  | delimited _ _ _ ih => exact ih
  | last _ _ _ => rfl

theorem getLast?_eq_item (h : SeriesRun shape item c s ps stop last)
    (hresync : shape.resync ≠ none) (hgoes : shape.endAt? (last.trail.next? c.tokens) = none) :
    ∃ x run d, ps.getLast? = some (.item x run) ∧ shape.delimiter = some d ∧
      (last.trail.next? c.tokens).map Token.kind ≠ some d := by
  have behind {p : Portion β} {ps : List (Portion β)} {q : Portion β}
      (hlast : ps.getLast? = some q) : (p :: ps).getLast? = some q := by
    rw [List.getLast?_cons, hlast, Option.getD_some]
  induction h with
  | ended hstop => cases hgoes.symm.trans hstop
  | aborted _ hnone => exact absurd hnone hresync
  | recovered _ _ ih =>
    obtain ⟨x, run, d, hlast, hends⟩ := ih hgoes
    exact ⟨x, run, d, behind hlast, hends⟩
  | item _ _ _ ih =>
    obtain ⟨x, run, d, hlast, hends⟩ := ih hgoes
    exact ⟨x, run, d, behind hlast, hends⟩
  | delimited _ _ _ ih =>
    obtain ⟨x, run, d, hlast, hends⟩ := ih hgoes
    exact ⟨x, run, d, behind (behind hlast), hends⟩
  | last _ hd hne => exact ⟨_, _, _, rfl, hd, hne⟩

end SeriesRun

section

variable (hkept : Kept c I) (hitem : DecidesFrom c I item)

include hkept hitem

/-- From each state of the sort the turns come to an end, and they are those of a run. -/
theorem exists_seriesRun (shape : SeriesShape) (hs : I s) (b : Series β) :
    ∃ b' s' ps last, Finishes (seriesTurn shape item) c b s b' s' ∧
      SeriesRun shape item c s ps b'.stop last ∧ s'.trail = last.trail ∧
      b'.items.toList = b.items.toList ++ ps.filterMap Portion.value? := by
  -- Every step consumes some of the tokens ahead.
  obtain ⟨n, hn⟩ : ∃ n, c.tokens.size - s.cursor < n := ⟨_, Nat.lt_succ_self _⟩
  induction n generalizing b s with
  | zero => exact absurd hn (Nat.not_lt_zero _)
  | succ n ih =>
    have hturned := seriesTurned hkept hitem hs shape b
    rcases hturn : (seriesTurn shape item b).eval c s with ⟨turn, s'⟩
    rw [hturn] at hturned
    cases hturned with
    | ended hstop htrail =>
      exact ⟨_, s', [], s, .done hturn, .ended hstop, htrail, (List.append_nil _).symm⟩
    | aborted hgoes hresync htrail =>
      exact ⟨_, s', [], s, .done hturn, .aborted hgoes hresync, htrail, (List.append_nil _).symm⟩
    | recovered hstep hI hlt =>
      have hsize := hstep.lt_size
      obtain ⟨b', s'', ps, last, hends, hrun, htrail, hitems⟩ := ih hI b (by omega)
      exact ⟨b', s'', _, last, .again hturn hsize hlt hends, .recovered hstep hrun, htrail, hitems⟩
    | item hnone hstep hI hlt =>
      have hsize := hstep.lt_size
      obtain ⟨b', s'', ps, last, hends, hrun, htrail, hitems⟩ := ih hI _ (by omega)
      refine ⟨b', s'', _, last, .again hturn hsize hlt hends, .item hnone hstep hrun, htrail, ?_⟩
      rw [hitems, Array.toList_push, List.append_assoc]
      rfl
    | delimited hstep hstep' hI hlt =>
      have hsize := hstep.lt_size
      obtain ⟨b', s'', ps, last, hends, hrun, htrail, hitems⟩ := ih hI _ (by omega)
      refine ⟨b', s'', _, last, .again hturn hsize hlt hends, .delimited hstep hstep' hrun, htrail,
        ?_⟩
      rw [hitems, Array.toList_push, List.append_assoc]
      rfl
    | last hstep hdelimiter hne htrail =>
      exact ⟨_, s', _, _, .done hturn, .last hstep hdelimiter hne, htrail, Array.toList_push⟩

end

theorem Session.Valid.kept {σ : Session} (hσ : σ.Valid) (flags : Flags) :
    Kept (σ.context flags) σ.Parses where
  within hs := Nat.le_trans hs.cursor hs.read
  look hs := hs.look
  take hs := hσ.parses_consume hs flags
  note _ hs := { hs with }

theorem Session.Valid.decidesFrom {σ : Session} (hσ : σ.Valid) (flags : Flags)
    (n : Grammar.Nonterminal) : DecidesFrom (σ.context flags) σ.Parses n.parser where
  decides hs := hσ.decides hs flags n
  kept hs := (hσ.eval_eq_bare hs n.readsOn flags n.alike).2.2

/-- A series comes to an end from any state of a sort, all states included, and for any item that
decides. What it consumes are the tokens of its items, delimiters and runs recovered from, in order,
and none of them is the terminator, unless an item has it inside. Each portion is accounted for by a
step of `SeriesRun`, with what is reported beside the reports of the items. -/
theorem series_unfolds (shape : SeriesShape) (item : Parser (Option β)) (c : ParseContext)
    (I : ParseState → Prop) (s : ParseState) (hkept : Kept c I) (hitem : DecidesFrom c I item)
    (hs : I s) (hdelimiter : ∀ k, shape.delimiter = some k → shape.terminator ≠ some k)
    (hsemicolon : shape.resync ≠ none → shape.terminator ≠ some .semicolon) :
    ∃ b s' ps last, Finishes (seriesTurn shape item) c {} s b s' ∧
      (series shape item).eval c s = (b, s') ∧
      SeriesRun shape item c s ps b.stop last ∧ s'.trail = last.trail ∧
      b.items.toList = ps.filterMap Portion.value? ∧
      reals c.tokens s.cursor = ps.flatMap Portion.tokens ++ reals c.tokens s'.cursor ∧
      (shape.resync = none → shape.delimiter ≠ none → Alternates ps) ∧
      (shape.resync = none → shape.delimiter = none → ∀ p ∈ ps, p.value?.isSome = true) ∧
      (∀ p ∈ ps, p.SparesTerminator shape) ∧
      (b.stop = .terminator ↔
        ∃ t, s'.trail.next? c.tokens = some t ∧ shape.terminator = some t.kind) ∧
      (b.stop = .endOfInput ↔ reals c.tokens s'.cursor = []) ∧
      (b.stop = .aborted → shape.resync = none ∨
        ∃ x run t, ps.getLast? = some (.item x run) ∧ s'.trail.next? c.tokens = some t ∧
          shape.delimiter ≠ none ∧ shape.delimiter ≠ some t.kind ∧
          shape.terminator ≠ some t.kind) := by
  obtain ⟨b, s', ps, last, hends, hrun, htrail, hitems⟩ :=
    exists_seriesRun hkept hitem shape hs {}
  have hcursor : s'.cursor = last.cursor := congrArg Trail.cursor htrail
  have hstop : b.stop = (shape.endAt? (s'.trail.next? c.tokens)).getD .aborted := by
    rw [htrail]
    exact hrun.stop_eq
  refine ⟨b, s', ps, last, hends, hends.eval_loop, hrun, htrail, hitems, ?_, hrun.alternates,
    hrun.items_alone, hrun.sparesTerminator hdelimiter hsemicolon, ?_, ?_, ?_⟩
  · rw [hcursor]
    exact hrun.consumes
  · rw [hstop]
    exact SeriesShape.stop_eq_terminator_iff
  · rw [hstop, SeriesShape.stop_eq_endOfInput_iff]
    exact reals_eq_nil_iff.symm
  · intro haborted
    rw [hstop, SeriesShape.stop_eq_aborted_iff] at haborted
    by_cases hresync : shape.resync = none
    · exact .inl hresync
    · obtain ⟨t, ht, hterminator⟩ := SeriesShape.endAt?_eq_none haborted
      rw [htrail] at haborted
      obtain ⟨x, run, d, hlast, hd, hne⟩ := hrun.getLast?_eq_item hresync haborted
      rw [← htrail, ht, Option.map_some] at hne
      refine .inr ⟨x, run, t, hlast, ht, ?_, ?_, hterminator⟩
      · exact Option.ne_none_iff_exists'.mpr ⟨d, hd⟩
      · rw [hd]
        exact hne.symm

theorem series_unfolds_trailing_comma :
    let σ := Session.ofSource ['a', ',', ')']
    let arguments : SeriesShape := { SeriesShape.commas .rightParen with allowTrailing := false }
    let names : SeriesShape :=
      { SeriesShape.upTo .rightParen with resync := some (.ofList [.identifier]) }
    let begun : ParseState := { memo := .empty }
    (∃ b s' ps last,
      (series arguments Grammar.expression).eval (σ.context {}) σ.start = (b, s') ∧
      SeriesRun arguments Grammar.expression (σ.context {}) σ.start ps b.stop last ∧
      b.items.size = 1 ∧ b.stop = .terminator ∧ s'.reports.size = 1) ∧
    ∃ b s' ps last, (series names (accept .identifier)).eval (σ.context {}) begun = (b, s') ∧
      SeriesRun names (accept .identifier) (σ.context {}) begun ps b.stop last ∧
      b.items.size = 1 ∧ b.stop = .terminator ∧ s'.reports.size = 1 := by
  intro σ arguments names begun
  have hσ : σ.Valid := Session.valid_ofSource _
  constructor
  · obtain ⟨b, s', ps, last, -, heval, hrun, -⟩ :=
      series_unfolds arguments Grammar.expression (σ.context {}) σ.Parses σ.start (hσ.kept {})
        (hσ.decidesFrom {} .expression) σ.parses_start (by decide) (by decide)
    have hresult :
        let r := (series arguments Grammar.expression).eval (σ.context {}) σ.start
        r.1.items.size = 1 ∧ r.1.stop = .terminator ∧ r.2.reports.size = 1 := by decide +kernel
    rw [heval] at hresult
    exact ⟨b, s', ps, last, heval, hrun, hresult⟩
  · obtain ⟨b, s', ps, last, -, heval, hrun, -⟩ :=
      series_unfolds names (accept .identifier) (σ.context {}) _ begun (kept_within _)
        (decidesFrom_within (decides_accept .identifier _)) (Nat.zero_le _) (by decide) (by decide)
    have hresult :
        let r := (series names (accept .identifier)).eval (σ.context {}) begun
        r.1.items.size = 1 ∧ r.1.stop = .terminator ∧ r.2.reports.size = 1 := by decide +kernel
    rw [heval] at hresult
    exact ⟨b, s', ps, last, heval, hrun, hresult⟩

end Reparse
