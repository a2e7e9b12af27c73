import Reparse.Proofs.Lexeme.Cut
import Reparse.Proofs.Timeline
import Reparse.Proofs.TokenStream.Numbering

/-!
# Contents of a stream

A stream holds the first lexemes of its source: its tokens show them, each at its place, and its
reports are about the faults found in them, in order. Reading adds lexemes, up to all there are.
-/

namespace Reparse

namespace Lexeme

def spread (before : Text) : List Lexeme → List (Text × Lexeme)
  | [] => []
  | l :: ls => (before, l) :: spread (before ++ l.text) ls

theorem spread_append (before : Text) (ls ms : List Lexeme) :
    spread before (ls ++ ms) = spread before ls ++ spread (before ++ joined ls) ms := by
  induction ls generalizing before with
  | nil => simp [spread]
  | cons l ls ih => simp only [List.cons_append, spread, ih, joined_cons, List.append_assoc]

theorem length_spread (before : Text) (ls : List Lexeme) :
    (spread before ls).length = ls.length := by
  induction ls generalizing before with
  | nil => rfl
  | cons l ls ih => simp only [spread, List.length_cons, ih]

/-- What is seen of the lexemes behind a text: kind, text and coordinates. -/
def sights (lines : Bool) (before : Text) (ls : List Lexeme) :
    List (Kind × Text × Option Placement) :=
  (spread before ls).map fun (b, l) =>
    (l.kind, l.text, some ((Placement.behind b l.text).seen lines))

theorem sights_append (lines : Bool) (before : Text) (ls ms : List Lexeme) :
    sights lines before (ls ++ ms) =
      sights lines before ls ++ sights lines (before ++ joined ls) ms := by
  rw [sights, spread_append, List.map_append]
  rfl

@[simp] theorem length_sights (lines : Bool) (before : Text) (ls : List Lexeme) :
    (sights lines before ls).length = ls.length := by
  rw [sights, List.length_map, length_spread]

theorem sights_cons (lines : Bool) (before : Text) (l : Lexeme) (ls : List Lexeme) :
    sights lines before (l :: ls) =
      (l.kind, l.text, some ((Placement.behind before l.text).seen lines)) ::
        sights lines (before ++ l.text) ls := rfl

theorem sights_words (lines : Bool) (before : Text) (ls : List Lexeme) :
    (sights lines before ls).map (fun x => (x.1, x.2.1)) = ls.map fun l => (l.kind, l.text) := by
  induction ls generalizing before with
  | nil => rfl
  | cons l ls ih => rw [sights_cons, List.map_cons, List.map_cons, ih]

def placed (before : Text) (ls : List Lexeme) : List PlacedToken :=
  (spread before ls).map fun (b, l) =>
    ⟨l.kind, l.text, (Placement.behind b l.text).location l.size⟩

def diagnostics (before : Text) (ls : List Lexeme) : List Diagnostic :=
  (spread before ls).filterMap fun (b, l) => l.fault.map fun code =>
    .ofReport code (faultArgs code l.text) ((Placement.behind b l.text).location l.size)

end Lexeme

def PlacedToken.seen (lines : Bool) (t : PlacedToken) : PlacedToken :=
  { t with location := t.location.seen lines }

def Diagnostic.seen (lines : Bool) (d : Diagnostic) : Diagnostic :=
  { d with location := d.location.seen lines }

theorem Diagnostic.seen_true (ds : List Diagnostic) : ds.map (Diagnostic.seen true) = ds := by
  have hsame : Diagnostic.seen true = id := rfl
  rw [hsame, List.map_id]

def Timeline.sight (lines : Bool) (t : Timeline) (token : Token) : Kind × Text × Option Placement :=
  (token.kind, token.text, (t.live? token.id).map (Placement.seen lines))

theorem Timeline.sight_true (t : Timeline) (token : Token) :
    t.sight true token = (token.kind, token.text, t.live? token.id) := by
  have hsame : Placement.seen true = id := rfl
  rw [sight, hsame, Option.map_id_fun, id]

def Token.faultReport? (t : Token) (fault : Option Code) : Option (Report Anchor) :=
  fault.map fun code => ⟨code, Lexeme.faultArgs code t.text, some (.token t)⟩

namespace TokenStream

open Lexeme (Cuts joined sights)

def faultReports (ts : List Token) (ls : List Lexeme) : List (Report Anchor) :=
  (ts.zip ls).filterMap fun (t, l) => t.faultReport? l.fault

theorem faultReports_append {ts us : List Token} {ls ms : List Lexeme}
    (h : ts.length = ls.length) :
    faultReports (ts ++ us) (ls ++ ms) = faultReports ts ls ++ faultReports us ms := by
  rw [faultReports, List.zip_append h, List.filterMap_append]
  rfl

/-- The tokens are the lexemes `ls` one behind the other, each at its place, and the reports are about
the faults found in them. Lines and columns count as part of a place only if `lines` is set. -/
structure Lays (lines : Bool) (s : TokenStream) (ls : List Lexeme) : Prop where
  point : Text.EndsAt lines (joined ls) s.point.offset s.point.position
  sights : s.tokens.toList.map (s.timeline.sight lines) = sights lines [] ls
  reports : s.reporter.recorded.toList = faultReports s.tokens.toList ls
  inStep : s.timeline.InStep

/-- The stream has read the lexemes `ls`, which are the first ones of its source. -/
structure Shows (lines : Bool) (s : TokenStream) (ls : List Lexeme) : Prop
    extends Lays lines s ls where
  cuts : Cuts s.source ls s.point.rest

def ShowsAll (lines : Bool) (s : TokenStream) : Prop :=
  s.Shows lines (Lexeme.all s.source) ∧ s.point.rest = []

variable {lines : Bool} {s : TokenStream} {ls : List Lexeme}

theorem Lays.length (h : s.Lays lines ls) : s.tokens.toList.length = ls.length := by
  have hlength := congrArg List.length h.sights
  rwa [List.length_map, Lexeme.length_sights] at hlength

theorem Lays.congr {s' : TokenStream} (h : s.Lays lines ls) (hpoint : s'.point = s.point)
    (htokens : s'.tokens = s.tokens) (htimeline : s'.timeline = s.timeline)
    (hrecorded : s'.reporter.recorded = s.reporter.recorded) : s'.Lays lines ls := by
  refine ⟨?_, ?_, ?_, ?_⟩
  · rw [hpoint]
    exact h.point
  · rw [htokens, htimeline]
    exact h.sights
  · rw [hrecorded, htokens]
    exact h.reports
  · rw [htimeline]
    exact h.inStep

theorem Lays.words (h : s.Lays lines ls) :
    s.tokens.toList.map (fun t => (t.kind, t.text)) = ls.map fun l => (l.kind, l.text) := by
  rw [← Lexeme.sights_words lines [] ls, ← h.sights, List.map_map]
  rfl

theorem Shows.showsAll (h : s.Shows lines ls) (hrest : s.point.rest = []) : s.ShowsAll lines := by
  have hcuts := h.cuts
  rw [hrest] at hcuts
  have hall := hcuts.unique (.all s.source)
  subst hall
  exact ⟨h, hrest⟩

theorem shows_ofSource (lines : Bool) (source : Text) : (ofSource source).Shows lines [] :=
  ⟨⟨⟨rfl, fun _ => rfl⟩, rfl, rfl, Timeline.inStep_empty⟩, .nil _⟩

theorem recorded_reportFault (s : TokenStream) (t : Token) (fault : Option Code) :
    (s.reportFault t fault).reporter.recorded.toList =
      s.reporter.recorded.toList ++ (t.faultReport? fault).toList := by
  cases fault with
  | none => exact (List.append_nil _).symm
  | some code => exact Array.toList_push ..

@[simp] theorem timeline_reportFault (s : TokenStream) (t : Token) (fault : Option Code) :
    (s.reportFault t fault).timeline = s.timeline := by
  cases fault <;> rfl

@[simp] theorem source_reportFault (s : TokenStream) (t : Token) (fault : Option Code) :
    (s.reportFault t fault).source = s.source := by
  cases fault <;> rfl

theorem sight_register {t : Timeline} (p : Placement) {token : Token}
    (h : token.id < t.markers.size) : (t.register p).sight lines token = t.sight lines token := by
  rw [Timeline.sight, Timeline.live_register_of_lt p h]
  rfl

theorem exists_live {t : Timeline} {ts : List Token} {before : Text}
    (h : ts.map (t.sight lines) = sights lines before ls) :
    ∀ token ∈ ts, ∃ p, t.live? token.id = some p := by
  intro token htoken
  have hmem : t.sight lines token ∈ sights lines before ls := h ▸ List.mem_map_of_mem htoken
  obtain ⟨⟨b, l⟩, -, hl⟩ := List.mem_map.mp hmem
  have hlive : (t.live? token.id).map (Placement.seen lines) = _ :=
    (congrArg (fun x => x.2.2) hl).symm
  obtain ⟨p, hp, -⟩ := Option.map_eq_some_iff.mp hlive
  exact ⟨p, hp⟩

theorem lt_of_sights {t : Timeline} {ts : List Token} {before : Text}
    (h : ts.map (t.sight lines) = sights lines before ls) :
    ∀ token ∈ ts, token.id < t.markers.size := by
  intro token htoken
  obtain ⟨p, hp⟩ := exists_live h token htoken
  exact Timeline.lt_of_live hp

theorem read_source (s : TokenStream) : s.read.2.source = s.source := by
  unfold read
  split
  · rfl
  · exact source_reportFault ..

theorem Lays.read (h : s.Lays lines ls) {c : Char} {cs : Text} (hrest : s.point.rest = c :: cs) :
    s.read.2.Lays lines (ls ++ [Lexeme.leading c cs]) ∧
      s.read.2.point.rest = cs.drop (Lexeme.leading c cs).rest.length ∧ s.read.1.isSome = true := by
  have hcut := ReadPoint.cut?_of_cons hrest
  have htokens : (s.make s.point (Lexeme.leading c cs)).2.tokens = s.tokens := rfl
  unfold TokenStream.read
  simp only [hcut]
  refine ⟨⟨?_, ?_, ?_, ?_⟩, trivial, rfl⟩
  · rw [Lexeme.joined_append, Lexeme.joined_cons, Lexeme.joined_nil, List.append_nil]
    exact h.point.append (Lexeme.leading c cs).text
  · rw [timeline_reportFault, htokens, Array.toList_push, List.map_append, Lexeme.sights_append]
    have hold : s.tokens.toList.map ((s.make s.point (Lexeme.leading c cs)).2.timeline.sight lines) =
        Lexeme.sights lines [] ls := by
      rw [← h.sights]
      exact List.map_congr_left fun t ht => sight_register _ (lt_of_sights h.sights t ht)
    have hnew : ((s.make s.point (Lexeme.leading c cs)).2.timeline.live? s.nextId).map
        (Placement.seen lines) =
          some ((Placement.behind (joined ls) (Lexeme.leading c cs).text).seen lines) := by
      have hlive := Timeline.live_register s.timeline
        (.ofText s.point.offset s.point.position (Lexeme.leading c cs).text)
      rw [← h.point.placement]
      exact congrArg (Option.map (Placement.seen lines)) hlive
    rw [hold, List.nil_append, Lexeme.sights_cons, List.map_cons, List.map_nil, Timeline.sight]
    simp only [make] at hnew ⊢
    rw [hnew]
    rfl
  · rw [recorded_reportFault, htokens, Array.toList_push, faultReports_append h.length]
    have hreports : (s.make s.point (Lexeme.leading c cs)).2.reporter.recorded.toList =
        faultReports s.tokens.toList ls := h.reports
    rw [hreports]
    rfl
  · rw [timeline_reportFault]
    exact h.inStep.register _

theorem Lays.readMore (h : s.Lays lines ls) (n : Nat) :
    ∃ ms, (TokenStream.readMore n s).Lays lines (ls ++ ms) ∧
      Cuts s.point.rest ms (TokenStream.readMore n s).point.rest ∧
      (TokenStream.readMore n s).source = s.source ∧
      (TokenStream.readMore n s).point.rest.length ≤ s.point.rest.length - n := by
  induction n generalizing s ls with
  | zero => exact ⟨[], by rwa [List.append_nil], .nil _, rfl, Nat.le_refl _⟩
  | succ n ih =>
    rw [readMore_succ]
    cases hrest : s.point.rest with
    | nil =>
      have hread : s.read = (none, s) := by
        simp only [TokenStream.read, ReadPoint.cut?, hrest]
      rw [hread]
      exact ⟨[], by rwa [List.append_nil], hrest ▸ .nil _, rfl, by simp [hrest]⟩
    | cons c cs =>
      obtain ⟨hlays, hrest', hsome⟩ := h.read hrest
      obtain ⟨ms, hms, hcuts, hsource, hlength⟩ := ih hlays
      rw [if_pos hsome]
      rw [hrest'] at hcuts
      refine ⟨Lexeme.leading c cs :: ms, ?_, .cons hcuts, hsource.trans (read_source s), ?_⟩
      · rwa [List.append_cons]
      · rw [hrest', List.length_drop] at hlength
        rw [List.length_cons]
        omega

theorem Shows.readMore (h : s.Shows lines ls) (n : Nat) :
    ∃ ms, (TokenStream.readMore n s).Shows lines (ls ++ ms) ∧
      (TokenStream.readMore n s).source = s.source ∧
      (TokenStream.readMore n s).point.rest.length ≤ s.point.rest.length - n := by
  obtain ⟨ms, hms, hcuts, hsource, hlength⟩ := h.toLays.readMore n
  exact ⟨ms, ⟨hms, hsource ▸ h.cuts.append hcuts⟩, hsource, hlength⟩

theorem Shows.readAll (h : s.Shows lines ls) :
    s.readAll.ShowsAll lines ∧ s.readAll.source = s.source := by
  obtain ⟨ms, hms, hsource, hlength⟩ := h.readMore s.point.rest.length
  rw [Nat.sub_self] at hlength
  exact ⟨hms.showsAll (List.length_eq_zero_iff.mp (Nat.le_zero.mp hlength)), hsource⟩

theorem Shows.readAllMuted (h : s.Shows lines ls) :
    s.readAllMuted.ShowsAll lines ∧ s.readAllMuted.source = s.source := by
  have hmuted : Shows lines { s with reporter := s.reporter.mute true } ls :=
    ⟨h.toLays.congr rfl rfl rfl rfl, h.cuts⟩
  obtain ⟨⟨hall, hrest⟩, hsource⟩ := hmuted.readAll
  exact ⟨⟨⟨hall.toLays.congr rfl rfl rfl rfl, hall.cuts⟩, hrest⟩, hsource⟩

theorem source_readMore (n : Nat) (s : TokenStream) : (TokenStream.readMore n s).source = s.source := by
  induction n generalizing s with
  | zero => rfl
  | succ n ih =>
    rw [readMore_succ]
    split
    · exact (ih _).trans (read_source s)
    · exact read_source s

theorem source_readAllMuted (s : TokenStream) : s.readAllMuted.source = s.source :=
  source_readMore _ { s with reporter := s.reporter.mute true }

theorem readAll_of_complete (h : s.point.rest = []) : s.readAll = s := by
  rw [TokenStream.readAll, h]
  rfl

theorem readAllMuted_of_complete (h : s.point.rest = []) : s.readAllMuted = s := by
  have hmuted : ({ s with reporter := s.reporter.mute true } : TokenStream).readAll =
      { s with reporter := s.reporter.mute true } := readAll_of_complete h
  rw [TokenStream.readAllMuted, hmuted]
  rfl

theorem readAll_of_showsAll (h : s.ShowsAll lines) : s.readAll = s := readAll_of_complete h.2

theorem readMore_reporter (n : Nat) (s : TokenStream) (reporter : Reporter Anchor) :
    TokenStream.readMore n { s with reporter } =
      { TokenStream.readMore n s with
        reporter := (TokenStream.readMore n { s with reporter }).reporter } := by
  induction n generalizing s reporter with
  | zero => rfl
  | succ n ih =>
    have hread : TokenStream.read { s with reporter } =
        (s.read.1, { s.read.2 with reporter := (TokenStream.read { s with reporter }).2.reporter }) := by
      unfold TokenStream.read
      cases s.point.cut? with
      | none => rfl
      | some cut =>
        obtain ⟨l, next⟩ := cut
        dsimp only
        cases l.fault <;> rfl
    rw [readMore_succ, readMore_succ, hread]
    split
    · exact ih ..
    · rfl

theorem readAllMuted_eq (s : TokenStream) :
    s.readAllMuted = { s.readAll with reporter := s.readAllMuted.reporter } := by
  have hread := readMore_reporter s.point.rest.length s (s.reporter.mute true)
  unfold TokenStream.readAllMuted TokenStream.readAll
  dsimp only
  rw [hread]

section

variable {t : Timeline} {token : Token} {before : Text} {l : Lexeme}
  (h : t.sight lines token =
    (l.kind, l.text, some ((Placement.behind before l.text).seen lines)))
include h

theorem location_of_sight : (t.location token).seen lines =
    ((Placement.behind before l.text).location l.size).seen lines := by
  have htext : token.text = l.text := congrArg (fun x => x.2.1) h
  have hlive : (t.live? token.id).map (Placement.seen lines) = _ := congrArg (fun x => x.2.2) h
  obtain ⟨p, hp, hseen⟩ := Option.map_eq_some_iff.mp hlive
  rw [Timeline.location, Timeline.placement_of_live hp, Token.size, htext,
    Placement.seen_location, hseen, ← Placement.seen_location]
  rfl

theorem start_of_sight : Text.EndsAt lines before (t.location token).span.start
    (t.location token).range.start := by
  have hlocation := location_of_sight h
  refine ⟨congrArg Span.start (Location.span_of_seen hlocation), fun hlines => ?_⟩
  rw [Location.eq_of_seen hlocation hlines]
  rfl

theorem stop_of_sight : Text.EndsAt lines (before ++ l.text) (t.location token).span.stop
    (t.location token).range.stop := by
  have hlocation := location_of_sight h
  refine ⟨?_, fun hlines => ?_⟩
  · rw [Location.span_of_seen hlocation, Text.size_append]
    rfl
  · rw [Location.eq_of_seen hlocation hlines, Position.advance_append]
    rfl

theorem placed_of_sight : (t.placed token.id token).seen lines =
    PlacedToken.seen lines ⟨l.kind, l.text, (Placement.behind before l.text).location l.size⟩ := by
  have hkind : token.kind = l.kind := congrArg Prod.fst h
  have htext : token.text = l.text := congrArg (fun x => x.2.1) h
  have hlocation := location_of_sight h
  rw [PlacedToken.seen, PlacedToken.seen, ← hlocation, ← hkind, ← htext]
  rfl

end

theorem placed_of_sights {t : Timeline} {ts : List Token} {before : Text}
    (h : ts.map (t.sight lines) = sights lines before ls) :
    (ts.map fun token => (t.placed token.id token).seen lines) =
      (Lexeme.placed before ls).map (PlacedToken.seen lines) := by
  induction ls generalizing ts before with
  | nil =>
    rw [List.map_eq_nil_iff.mp h]
    rfl
  | cons l ls ih =>
    obtain ⟨token, rest, rfl, htoken, hrest⟩ := List.map_eq_cons_iff.mp h
    rw [List.map_cons, ih hrest, placed_of_sight htoken]
    rfl

theorem diagnostics_of_sights {t : Timeline} {ts : List Token} {before : Text}
    (h : ts.map (t.sight lines) = sights lines before ls) :
    (faultReports ts ls).map (fun r => (r.diagnostic t.resolve).seen lines) =
      (Lexeme.diagnostics before ls).map (Diagnostic.seen lines) := by
  induction ls generalizing ts before with
  | nil =>
    rw [List.map_eq_nil_iff.mp h]
    rfl
  | cons l ls ih =>
    obtain ⟨token, rest, rfl, htoken, hrest⟩ := List.map_eq_cons_iff.mp h
    have hlocation := location_of_sight htoken
    have htext : token.text = l.text := congrArg (fun x => x.2.1) htoken
    have htail := ih hrest
    simp only [faultReports, Lexeme.diagnostics, List.zip_cons_cons, Lexeme.spread,
      List.filterMap_cons, Token.faultReport?] at htail ⊢
    cases l.fault with
    | none => exact htail
    | some code =>
      simp only [Option.map_some, List.map_cons, htail]
      congr 1
      rw [Report.diagnostic, Report.location, htext, Diagnostic.seen, Diagnostic.seen,
        Diagnostic.ofReport, Diagnostic.ofReport]
      exact congrArg (Diagnostic.mk code _) hlocation

theorem ShowsAll.placed (h : s.ShowsAll lines) :
    s.tokens.toList.map (fun t => (s.place t).seen lines) =
      (Lexeme.placed [] (Lexeme.all s.source)).map (PlacedToken.seen lines) :=
  placed_of_sights h.1.sights

theorem ShowsAll.diagnostics (h : s.ShowsAll lines) :
    s.diagnostics.map (Diagnostic.seen lines) =
      (Lexeme.diagnostics [] (Lexeme.all s.source)).map (Diagnostic.seen lines) := by
  rw [TokenStream.diagnostics, Reporter.diagnostics, h.1.reports, List.map_map]
  exact diagnostics_of_sights h.1.sights

end TokenStream

end Reparse
