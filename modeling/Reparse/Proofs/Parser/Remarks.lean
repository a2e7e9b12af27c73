import Mathlib.Data.List.Perm.Basic
import Reparse.Proofs.Parser.Results
import Reparse.Proofs.Tree.Chains

/-!
# Remarks on a tree

Two sorts of reports do not come from tokens that are missing or in the way, but from the tree that
is built: warnings about chains that mix logical operators, and reports about jumps that no loop is
around. What a run reports of these sorts is told by the tree that it builds, report by report.
-/

namespace Reparse

open Reparse.Parser

variable {β γ : Type} {tokens : Array Token} {flags : Flags} {a b c : Trail} {i j k n : Nat}

def Kind.isJump (k : Kind) : Bool := k = .breakWord || k = .continueWord || k = .returnWord

def Statement.word? {α : Type} : Statement α → Option Kind
  | .break _ => some .breakWord
  | .continue _ => some .continueWord
  | _ => none

def Statement.keyword? (s : Statement Info) : Option Token := s.info.extent?.map Extent.first

/-- The operators at which chains come to mix, and the jumps. -/
structure Remarks where
  changes : List (Link Info) := []
  jumps : List (Statement Info × Bool) := []

namespace Remarks

instance : Append Remarks where
  append v w := ⟨v.changes ++ w.changes, v.jumps ++ w.jumps⟩

@[simp] theorem append_empty (v : Remarks) : v ++ {} = v := by
  obtain ⟨changes, jumps⟩ := v
  change Remarks.mk _ _ = _
  simp only [List.append_nil]

@[simp] theorem empty_append (v : Remarks) : {} ++ v = v := rfl

theorem append_assoc (u v w : Remarks) : u ++ v ++ w = u ++ (v ++ w) := by
  change Remarks.mk _ _ = Remarks.mk _ _
  congr 1
  · exact List.append_assoc ..
  · exact List.append_assoc ..

def all (view : β → Remarks) (xs : List β) : Remarks where
  changes := xs.flatMap fun x => (view x).changes
  jumps := xs.flatMap fun x => (view x).jumps

theorem all_concat (view : β → Remarks) (xs : List β) (x : β) :
    all view (xs ++ [x]) = all view xs ++ view x := by
  rw [all, List.flatMap_append, List.flatMap_append, List.flatMap_singleton,
    List.flatMap_singleton]
  rfl

def optional (view : β → Remarks) (x? : Option β) : Remarks := x?.elim {} view

end Remarks

def Report.isWarning (r : Report Anchor) : Bool := r.code = .mixedLogic

def Report.token? (r : Report Anchor) : Option Token :=
  match r.anchor with
  | some (.token t) => some t
  | _ => none

def Report.isMisplaced (r : Report Anchor) : Bool :=
  r.code = .strayToken && r.token?.any fun t => t.kind.isJump

structure Report.Quiet (r : Report Anchor) : Prop where
  warning : r.isWarning = false
  misplaced : r.isMisplaced = false

theorem Report.quiet_of_code {r : Report Anchor} (hmixed : r.code ≠ .mixedLogic)
    (hstray : r.code ≠ .strayToken) : r.Quiet :=
  ⟨decide_eq_false hmixed, by rw [isMisplaced, decide_eq_false hstray, Bool.false_and]⟩

theorem Report.quiet_stray {code : Code} {t : Token} (hcode : code ≠ .mixedLogic)
    (ht : code = .strayToken → t.kind.isJump = false) : (stray code t).Quiet := by
  refine ⟨decide_eq_false hcode, ?_⟩
  by_cases hstray : code = .strayToken
  · exact (congrArg (decide (code = .strayToken) && ·) (ht hstray)).trans (Bool.and_false _)
  · exact (congrArg (· && t.kind.isJump) (decide_eq_false hstray)).trans (Bool.false_and _)

def Link.Warned (tokens : Array Token) (l : Link Info) (r : Report Anchor) : Prop :=
  ∃ e i t, l.left.outline.extent? = some e ∧ tokens[i]? = some e.last ∧
    tokens[nextReal tokens (i + 1)]? = some t ∧ t.kind = l.operator.kind ∧
    r = ⟨.mixedLogic, [], some (.token t)⟩

/-- The reports of a run over the tokens from index `i` up to index `j` are as a tree calls for. For
a target that nothing can be assigned to the tree has a stand-in, so nothing is said of warnings
then. -/
structure Noted (tokens : Array Token) (i j : Nat) (reports : List (Report Anchor)) (w : Remarks) :
    Prop where
  warnings : (∀ r ∈ reports, r.code ≠ .notAssignable) → ∃ links, links.Perm w.changes ∧
    List.Forall₂ (Link.Warned tokens) links (reports.filter Report.isWarning)
  operators : ((reports.filter Report.isWarning).filterMap Report.token?).Sublist
    (stretch tokens i j)
  led : ∀ s ∈ w.jumps, ∃ t, s.1.keyword? = some t ∧ s.1.word? = some t.kind
  keywords : (w.jumps.filterMap fun s => s.1.keyword?).Sublist (stretch tokens i j)
  misplaced : reports.filter Report.isMisplaced =
    ((w.jumps.filter fun s => !s.2).filterMap fun s => s.1.keyword?).map (.stray .strayToken)

namespace Noted

variable {reports more : List (Report Anchor)} {v w : Remarks} {r : Report Anchor}

theorem nil : Noted tokens i j [] {} where
  warnings _ := ⟨[], .refl [], .nil⟩
  operators := List.nil_sublist _
  led := fun _ hs => absurd hs List.not_mem_nil
  keywords := List.nil_sublist _
  misplaced := rfl

theorem append (h : Noted tokens i j reports v) (h' : Noted tokens j k more w) (hij : i ≤ j)
    (hjk : j ≤ k) : Noted tokens i k (reports ++ more) (v ++ w) := by
  have hchanges : (v ++ w).changes = v.changes ++ w.changes := rfl
  have hjumps : (v ++ w).jumps = v.jumps ++ w.jumps := rfl
  refine ⟨fun hcodes => ?_, ?_, fun s hs => ?_, ?_, ?_⟩
  · obtain ⟨hleft, hright⟩ := List.forall_mem_append.mp hcodes
    obtain ⟨links, hperm, hwarned⟩ := h.warnings hleft
    obtain ⟨links', hperm', hwarned'⟩ := h'.warnings hright
    rw [hchanges, List.filter_append]
    exact ⟨links ++ links', hperm.append hperm', List.rel_append hwarned hwarned'⟩
  · rw [List.filter_append, List.filterMap_append, ← stretch_append hij hjk]
    exact h.operators.append h'.operators
  · rw [hjumps] at hs
    exact (List.mem_append.mp hs).elim (h.led s) (h'.led s)
  · rw [hjumps, List.filterMap_append, ← stretch_append hij hjk]
    exact h.keywords.append h'.keywords
  · rw [hjumps, List.filter_append, h.misplaced, h'.misplaced, List.filter_append,
      List.filterMap_append, List.map_append]

theorem quiet (hr : r.Quiet) : Noted tokens i j [r] {} := by
  have hwarning : [r].filter Report.isWarning = [] := by
    rw [List.filter_cons_of_neg (by rw [hr.warning]; exact Bool.false_ne_true), List.filter_nil]
  have hmisplaced : [r].filter Report.isMisplaced = [] := by
    rw [List.filter_cons_of_neg (by rw [hr.misplaced]; exact Bool.false_ne_true), List.filter_nil]
  refine ⟨fun _ => ⟨[], .refl [], ?_⟩, ?_, fun _ hs => absurd hs List.not_mem_nil,
    List.nil_sublist _, hmisplaced⟩
  · rw [hwarning]
    exact .nil
  · rw [hwarning]
    exact List.nil_sublist _

theorem perm (h : Noted tokens i j reports w) {changes : List (Link Info)}
    (hperm : w.changes.Perm changes) : Noted tokens i j reports ⟨changes, w.jumps⟩ where
  warnings hcodes := by
    obtain ⟨links, hlinks, hwarned⟩ := h.warnings hcodes
    exact ⟨links, hlinks.trans hperm, hwarned⟩
  operators := h.operators
  led := h.led
  keywords := h.keywords
  misplaced := h.misplaced

theorem refused (h : Noted tokens i j reports w) (hr : ∃ r ∈ reports, r.code = .notAssignable)
    (changes : List (Link Info)) : Noted tokens i j reports ⟨changes, w.jumps⟩ where
  warnings hcodes := by
    obtain ⟨r, hr, hcode⟩ := hr
    exact absurd hcode (hcodes r hr)
  operators := h.operators
  led := h.led
  keywords := h.keywords
  misplaced := h.misplaced

theorem warning {l : Link Info} {t : Token}
    (hr : l.Warned tokens ⟨.mixedLogic, [], some (.token t)⟩) (ht : t ∈ stretch tokens i j) :
    Noted tokens i j [⟨.mixedLogic, [], some (.token t)⟩] ⟨[l], []⟩ where
  warnings _ := ⟨[l], .refl _, .cons hr .nil⟩
  operators := List.singleton_sublist.mpr ht
  led := fun _ hs => absurd hs List.not_mem_nil
  keywords := List.nil_sublist _
  misplaced := rfl

theorem jump {s : Statement Info} {t : Token} (hkeyword : s.keyword? = some t)
    (hword : s.word? = some t.kind) (ht : t ∈ stretch tokens i j) (looped : Bool) :
    Noted tokens i j (if looped then [] else [.stray .strayToken t]) ⟨[], [(s, looped)]⟩ := by
  have hjump : t.kind.isJump = true := by
    cases s with
    | «break» | «continue» =>
      rw [← Option.some.inj hword]
      rfl
    | _ => cases hword
  have hkeywords : [(s, looped)].filterMap (fun s => s.1.keyword?) = [t] :=
    List.filterMap_cons_some hkeyword
  refine ⟨fun _ => ⟨[], .refl [], ?_⟩, ?_, fun s' hs => ?_, ?_, ?_⟩
  · cases looped <;> exact .nil
  · cases looped <;> exact List.nil_sublist _
  · rw [List.mem_singleton.mp hs]
    exact ⟨t, hkeyword, hword⟩
  · rw [hkeywords]
    exact List.singleton_sublist.mpr ht
  · cases looped with
    | true => rfl
    | false =>
      have hmisplaced : (Report.stray .strayToken t).isMisplaced = true := hjump
      change [Report.stray .strayToken t].filter Report.isMisplaced =
        ([(s, false)].filterMap fun s => s.1.keyword?).map (.stray .strayToken)
      rw [hkeywords, List.filter_cons_of_pos hmisplaced]
      rfl

end Noted

theorem Trail.lt_past (tokens : Array Token) (a : Trail) : a.cursor < (a.past tokens).cursor :=
  Nat.lt_succ_of_le (le_nextReal tokens a.cursor)

def Remarked (tokens : Array Token) (a b : Trail) (w : Remarks) : Prop :=
  a.cursor ≤ b.cursor ∧ ∃ reports, b.reports = a.reports ++ reports ∧
    Noted tokens a.cursor b.cursor reports w

namespace Remarked

variable {v w : Remarks} {r : Report Anchor}

theorem le (h : Remarked tokens a b w) : a.cursor ≤ b.cursor := h.1

theorem of_eq (hle : a.cursor ≤ b.cursor) (hreports : b.reports = a.reports) :
    Remarked tokens a b {} := ⟨hle, [], by rw [hreports, List.append_nil], .nil⟩

theorem refl (a : Trail) : Remarked tokens a a {} := of_eq (Nat.le_refl _) rfl

theorem trans (h : Remarked tokens a b v) (h' : Remarked tokens b c w) :
    Remarked tokens a c (v ++ w) := by
  obtain ⟨hle, reports, hreports, hnoted⟩ := h
  obtain ⟨hle', more, hmore, hnoted'⟩ := h'
  refine ⟨Nat.le_trans hle hle', reports ++ more, ?_, hnoted.append hnoted' hle hle'⟩
  rw [hmore, hreports, List.append_assoc]

theorem next (h : Remarked tokens a b w) (h' : Remarked tokens b c {}) : Remarked tokens a c w := by
  have htrans := h.trans h'
  rwa [Remarks.append_empty] at htrans

theorem past (a : Trail) : Remarked tokens a (a.past tokens) {} :=
  of_eq (Nat.le_of_lt (a.lt_past tokens)) rfl

theorem report (a : Trail) (hr : r.Quiet) : Remarked tokens a (a.reported r) {} :=
  ⟨Nat.le_refl _, [r], rfl, .quiet hr⟩

theorem perm (h : Remarked tokens a b w) {changes : List (Link Info)}
    (hperm : w.changes.Perm changes) : Remarked tokens a b ⟨changes, w.jumps⟩ := by
  obtain ⟨hle, reports, hreports, hnoted⟩ := h
  exact ⟨hle, reports, hreports, hnoted.perm hperm⟩

theorem refused (h : Remarked tokens a b w) (anchor : Option Anchor) (changes : List (Link Info)) :
    Remarked tokens a (b.reported ⟨.notAssignable, [], anchor⟩) ⟨changes, w.jumps⟩ := by
  have hquiet : Report.Quiet ⟨.notAssignable, [], anchor⟩ := Report.quiet_of_code nofun nofun
  obtain ⟨hle, reports, hreports, hnoted⟩ := h.next (.report b hquiet)
  refine ⟨hle, reports, hreports, hnoted.refused ⟨⟨.notAssignable, [], anchor⟩, ?_, rfl⟩ changes⟩
  obtain ⟨-, before, hbefore, -⟩ := h
  have hlast : reports = before ++ [⟨.notAssignable, [], anchor⟩] := by
    refine List.append_cancel_left (hreports.symm.trans ?_)
    rw [Trail.reported, hbefore, List.append_assoc]
  rw [hlast]
  exact List.mem_append_right _ (List.mem_singleton.mpr rfl)

theorem framed (h : Remarked tokens { a with comments := [] } b w) :
    Remarked tokens a (a.behind b) w := h

end Remarked

def Quiet (tokens : Array Token) (p : Parser β) : Prop :=
  ∀ flags a, Runs tokens flags a p fun _ b => Remarked tokens a b {}

/-- The parser reports what its result calls for, from index `n` on. -/
def Notes (tokens : Array Token) (flags : Flags) (n : Nat) (view : β → Remarks) (p : Parser β) :
    Prop := ∀ a, n ≤ a.cursor → Runs tokens flags a p fun x b => Remarked tokens a b (view x)

namespace Quiet

variable {p : Parser β} {v : Remarks}

theorem after (h : Quiet tokens p) (ha : Remarked tokens a b v) :
    Runs tokens flags b p fun _ c => Remarked tokens a c v :=
  (h flags b).weaken fun _ _ hb => ha.next hb

theorem pure (x : β) : Quiet tokens (Pure.pure x) := fun _ a => .pure (.refl a)

theorem bind {q : β → Parser γ} (hp : Quiet tokens p) (hq : ∀ x, Quiet tokens (q x)) :
    Quiet tokens (p >>= q) := fun flags a =>
  (hp flags a).bind fun x _ hb => (hq x).after hb

theorem map (f : β → γ) (hp : Quiet tokens p) : Quiet tokens (f <$> p) := fun flags a =>
  (hp flags a).map fun _ _ hb => hb

end Quiet

theorem quiet_nextToken : Quiet tokens nextToken := fun _ _ =>
  runs_nextToken.weaken fun _ b hb => by
    obtain ⟨rfl, -⟩ := hb
    exact .refl b

theorem quiet_nextKind : Quiet tokens nextKind := quiet_nextToken.bind fun _ => .pure _

theorem quiet_isNext (k : Kind) : Quiet tokens (isNext k) := quiet_nextKind.bind fun _ => .pure _

theorem quiet_consume : Quiet tokens consume := fun _ a => runs_consume.weaken fun t? b hb => by
  cases t? with
  | none =>
    obtain ⟨-, rfl⟩ := hb
    exact .refl b
  | some t =>
    obtain ⟨-, rfl⟩ := hb
    exact .past a

theorem quiet_claimComments : Quiet tokens claimComments := fun _ _ =>
  runs_claimComments.weaken fun _ _ hb => hb.2 ▸ .of_eq (Nat.le_refl _) rfl

theorem quiet_accept (k : Kind) : Quiet tokens (accept k) := fun _ a =>
  (runs_accept k).weaken fun t? b hb => by
    cases t? with
    | none =>
      obtain ⟨rfl, -⟩ := hb
      exact .refl b
    | some t =>
      obtain ⟨-, -, rfl⟩ := hb
      exact .past a

theorem quiet_reportNext {code : Code} (hmixed : code ≠ .mixedLogic) (hstray : code ≠ .strayToken)
    (args : List Text) : Quiet tokens (reportNext code args) := fun _ a =>
  (runs_reportNext code args).weaken fun _ b hb => by
    obtain ⟨anchor, rfl⟩ := hb
    exact .report a (Report.quiet_of_code hmixed hstray)

theorem quiet_require (k : Kind) : Quiet tokens (require k) := (quiet_accept k).bind fun t? => by
  cases t? with
  | some t => exact .pure _
  | none => exact (quiet_reportNext (by decide) (by decide) _).bind fun _ => .pure _

theorem quiet_infoFrom (first : Token) (comments : List Token) :
    Quiet tokens (infoFrom first comments) := fun _ a =>
  (runs_infoFrom first comments).weaken fun _ b hb => by
    subst hb
    exact .refl b

theorem quiet_infoAfter (start? : Option Info) : Quiet tokens (infoAfter start?) := fun _ a =>
  (runs_infoAfter start?).weaken fun _ b hb => by
    subst hb
    exact .refl b

namespace Notes

variable {view : β → Remarks} {p : Parser (Option β)} {q : Parser β} {v : Remarks}

theorem after (h : Notes tokens flags n view q) (ha : Remarked tokens a b v) (hn : n ≤ a.cursor) :
    Runs tokens flags b q fun x c => Remarked tokens a c (v ++ view x) :=
  (h b (Nat.le_trans hn ha.le)).weaken fun _ _ hx => ha.trans hx

theorem underFlags {add remove : Flags} (h : Notes tokens (flags.adjust add remove) n view q) :
    Notes tokens flags n view (underFlags add remove q) := fun a ha => (h a ha).underFlags

theorem remembered [RuleNode β] (h : Notes tokens flags n (.optional view) p) :
    Notes tokens flags n (.optional view) (remembered p) := fun a ha =>
  .remembered (fun _ => h a ha)
    ((h { a with comments := [] } ha).weaken fun _ _ hx => hx.framed)

theorem required (h : Notes tokens flags n (.optional view) p) {code : Code} {standIn : β}
    (hmixed : code ≠ .mixedLogic) (hstray : code ≠ .strayToken) (hstandIn : view standIn = {}) :
    Notes tokens flags n view (required p code standIn) := fun a ha =>
  (h a ha).bind fun x? b hx => by
    cases x? with
    | some x => exact .pure hx
    | none =>
      refine ((quiet_reportNext hmixed hstray []).after hx).bind fun _ c hc => .pure ?_
      rwa [hstandIn]

end Notes

theorem notes_items {shape : SeriesShape} {item : Parser (Option β)} {view : β → Remarks}
    (hdelimiter : ∀ k ∈ shape.delimiter, k.isJump = false) (hstray : shape.stray ≠ .mixedLogic)
    (hitem : ∀ a, n ≤ a.cursor → Runs tokens flags a item fun x? b =>
      Remarked tokens a b (.optional view x?) ∧
        (x? = none → shape.resumeSet?.isSome = true → shape.stray = .strayToken →
          ∀ t, b.next? tokens = some t → t.kind.isJump = false)) :
    Notes tokens flags n (.all view) (items shape item) := by
  intro a ha
  refine runs_items_keeps (K := fun xs b => Remarked tokens a b (.all view xs))
    (fun xs b hxs => ?_) (fun xs b t hxs _ hk => ?_) (.refl a)
  · refine (hitem b (Nat.le_trans ha hxs.le)).weaken fun x? c hx => ?_
    obtain ⟨hremarked, hnone⟩ := hx
    cases x? with
    | some x =>
      have htrans := hxs.trans hremarked
      change Remarked tokens a c (.all view (xs ++ [x]))
      rwa [Remarks.all_concat]
    | none =>
      have hc : Remarked tokens a c (.all view xs) := hxs.next hremarked
      cases hset : shape.resumeSet? with
      | none =>
        simp only [Proceeds, hset]
        exact hc
      | some set =>
        simp only [Proceeds, hset]
        refine (runs_skipStray_reports set shape.stray).weaken fun _ d hd => ?_
        rcases hd with ⟨-, rfl⟩ | ⟨t, ht, hle, hreports⟩
        · exact hc
        · have hquiet : (Report.stray shape.stray t).Quiet := Report.quiet_stray hstray
            fun hcode => hnone rfl (by rw [hset]; rfl) hcode t ht
          exact hc.next ⟨hle, _, hreports, .quiet hquiet⟩
  · refine (runs_checkTrailing_reports shape t).weaken fun _ c hc => ?_
    have hquiet : (Report.stray .strayToken t).Quiet :=
      Report.quiet_stray (by decide) fun _ => hdelimiter _ hk
    have hpast := hxs.next (.past b)
    rcases hc with rfl | rfl
    · exact hpast
    · exact hpast.next (.report _ hquiet)

theorem Remarks.optional_quiet (x? : Option β) : Remarks.optional (fun _ => {}) x? = {} := by
  cases x? <;> rfl

theorem Remarks.all_quiet (xs : List β) : Remarks.all (fun _ => {}) xs = {} := by
  rw [Remarks.all, List.flatMap_eq_nil_iff.mpr fun _ _ => rfl,
    List.flatMap_eq_nil_iff.mpr fun _ _ => rfl]

namespace Quiet

variable {p : Parser (Option β)} {q : Parser β}

theorem optional (h : Quiet tokens p) : Notes tokens flags n (.optional fun _ => {}) p :=
  fun a _ => (h flags a).weaken fun x? _ hx => (Remarks.optional_quiet x?).symm ▸ hx

theorem remembered [RuleNode β] (h : Quiet tokens p) : Quiet tokens (remembered p) :=
  fun _ a => (h.optional.remembered a (Nat.zero_le _)).weaken fun x? _ hx =>
    Remarks.optional_quiet x? ▸ hx

theorem required (h : Quiet tokens p) {code : Code} {standIn : β} (hmixed : code ≠ .mixedLogic)
    (hstray : code ≠ .strayToken) : Quiet tokens (required p code standIn) :=
  fun _ a => h.optional.required hmixed hstray rfl a (Nat.zero_le _)

theorem items (h : Quiet tokens p) {shape : SeriesShape} (hresync : shape.resync = none)
    (hdelimiter : ∀ k ∈ shape.delimiter, k.isJump = false) (hstray : shape.stray ≠ .mixedLogic) :
    Quiet tokens (items shape p) := fun flags a => by
  have hset : shape.resumeSet?.isSome = false := by
    rw [SeriesShape.resumeSet?, hresync]
    rfl
  have hitems : Notes tokens flags 0 (.all fun _ => {}) (Parser.items shape p) :=
    notes_items hdelimiter hstray fun b hb => (h.optional b hb).weaken fun _ _ hx =>
      ⟨hx, fun _ hsome => absurd (hset.symm.trans hsome) Bool.false_ne_true⟩
  exact (hitems a (Nat.zero_le _)).weaken fun xs _ hx => Remarks.all_quiet xs ▸ hx

theorem loop {σ : Type} {turn : σ → Parser (Turn σ)} (h : ∀ x, Quiet tokens (turn x)) (x : σ) :
    Quiet tokens (loop turn x) := fun _ a =>
  runs_loop_keeps (I := fun _ b => Remarked tokens a b {}) (fun x _ hb => (h x).after hb) (.refl a)

end Quiet

end Reparse
