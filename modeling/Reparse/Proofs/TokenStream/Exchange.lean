import Reparse.Proofs.TokenStream.Contents

/-!
# Exchanging tokens

Cutting an exchanged text again comes to a point where an old token starts, or to the end. What is
left there is what the old token and those behind it were cut from, so they can stay. The stream
afterwards has read all of its new source, provided the tokens before the exchanged ones come out of
the new source as well.
-/

namespace Reparse

open Lexeme (Cuts joined spread sights)

def FoundLexeme.placement (f : FoundLexeme) : Placement :=
  .ofText f.point.offset f.point.position f.lexeme.text

def FoundLexeme.sight (lines : Bool) (f : FoundLexeme) : Kind × Text × Option Placement :=
  (f.lexeme.kind, f.lexeme.text, some (f.placement.seen lines))

def FoundLexeme.Are (lines : Bool) (found : List FoundLexeme) (before : Text)
    (ms : List Lexeme) : Prop :=
  (found.map fun f => (f.lexeme, f.placement.seen lines)) =
    (spread before ms).map fun (b, l) => (l, (Placement.behind b l.text).seen lines)

theorem Lexeme.map_snd_spread (before : Text) (ls : List Lexeme) :
    (spread before ls).map Prod.snd = ls := by
  induction ls generalizing before with
  | nil => rfl
  | cons l ls ih => rw [spread, List.map_cons, ih]

namespace FoundLexeme.Are

variable {lines : Bool} {found : List FoundLexeme} {before : Text} {ms : List Lexeme}
  (h : FoundLexeme.Are lines found before ms)
include h

theorem sights : found.map (FoundLexeme.sight lines) = Lexeme.sights lines before ms := by
  have hsights := congrArg (List.map fun x => (x.1.kind, x.1.text, some x.2)) h
  rwa [List.map_map, List.map_map] at hsights

theorem lexemes : found.map FoundLexeme.lexeme = ms := by
  have hlexemes := congrArg (List.map Prod.fst) h
  rw [List.map_map, List.map_map] at hlexemes
  exact hlexemes.trans (Lexeme.map_snd_spread before ms)

end FoundLexeme.Are

theorem Lexeme.Cuts.drop {t : Text} {ls ms : List Lexeme} (h : Cuts t (ls ++ ms) []) :
    Cuts (Lexeme.joined ms) ms [] := by
  obtain ⟨u, -, hrest⟩ := h.split
  have hjoined := hrest.joined
  rw [List.append_nil] at hjoined
  rwa [hjoined] at hrest

namespace Survivor

def StartAt (olds : List Survivor) (before : Text) (cs : List Lexeme) : Prop :=
  olds.map Survivor.start = (spread before cs).map fun x => (Text.size x.1 : Int)

theorem StartAt.length {olds : List Survivor} {before : Text} {cs : List Lexeme}
    (h : StartAt olds before cs) : olds.length = cs.length := by
  have hlength := congrArg List.length h
  rwa [List.length_map, List.length_map, Lexeme.length_spread] at hlength

theorem StartAt.split {olds olds' : List Survivor} {before : Text} {cs : List Lexeme}
    (h : StartAt (olds ++ olds') before cs) :
    ∃ ds es, cs = ds ++ es ∧ olds.length = ds.length ∧ StartAt olds' (before ++ joined ds) es := by
  have hlength := h.length
  rw [List.length_append] at hlength
  refine ⟨cs.take olds.length, cs.drop olds.length, (List.take_append_drop ..).symm, ?_, ?_⟩
  · rw [List.length_take]
    omega
  · unfold StartAt at h ⊢
    rw [← List.take_append_drop olds.length cs, List.map_append, Lexeme.spread_append,
      List.map_append] at h
    refine (List.append_inj h ?_).2
    rw [List.length_map, List.length_map, Lexeme.length_spread, List.length_take]
    omega

/-- What rescanning the text `rest` behind `pre` has to come to, when the old tokens are those of the
lexemes `cs` behind `before`: some lexemes `ms` are found, and the old tokens that stay are those of
the lexemes `es` that come next. -/
def Resumes (lines : Bool) (pre rest before : Text) (olds : List Survivor) (cs : List Lexeme)
    (result : List FoundLexeme × List Token) : Prop :=
  ∃ gone kept ds es ms, olds = gone ++ kept ∧ cs = ds ++ es ∧ gone.length = ds.length ∧
    result.2 = kept.map Survivor.token ∧ FoundLexeme.Are lines result.1 pre ms ∧
    Cuts rest ms (joined es) ∧ pre ++ joined ms = before ++ joined ds

variable {lines : Bool} {pre rest before : Text} {olds : List Survivor} {cs : List Lexeme}
  {result : List FoundLexeme × List Token}

theorem resumes_end (hstarts : StartAt olds before cs) (hall : before ++ joined cs = pre) :
    Resumes lines pre [] before olds cs ([], []) :=
  ⟨olds, [], cs, [], [], (List.append_nil _).symm, (List.append_nil _).symm, hstarts.length, rfl,
    rfl, .nil _, by rw [hall]; exact List.append_nil _⟩

theorem resumes_here {o : Survivor} (hstarts : StartAt (o :: olds) before cs)
    (hall : before ++ joined cs = pre ++ rest) (ho : o.start = Text.size pre) :
    Resumes lines pre rest before (o :: olds) cs ([], (o :: olds).map Survivor.token) := by
  have hsize : Text.size before = Text.size pre := by
    cases cs with
    | nil => exact absurd hstarts.length (Nat.succ_ne_zero _)
    | cons l cs =>
      have hhead := (List.cons.inj hstarts).1
      rw [ho] at hhead
      exact (Int.ofNat.inj hhead).symm
  obtain ⟨hpre, hrest⟩ := Text.append_inj_size hall hsize
  refine ⟨[], o :: olds, [], cs, [], rfl, rfl, rfl, rfl, rfl, ?_, ?_⟩
  · rw [hrest]
    exact .nil _
  · rw [hpre]

theorem Resumes.found {c : Char} {cs' : Text} {p : ReadPoint}
    (hpoint : Text.EndsAt lines pre p.offset p.position)
    (h : Resumes lines (pre ++ (Lexeme.leading c cs').text)
      (cs'.drop (Lexeme.leading c cs').rest.length) before olds cs result) :
    Resumes lines pre (c :: cs') before olds cs
      (⟨p, Lexeme.leading c cs'⟩ :: result.1, result.2) := by
  obtain ⟨gone, kept, ds, es, ms, hgone, hds, hlength, hkept, hfound, hcuts, hjoined⟩ := h
  refine ⟨gone, kept, ds, es, Lexeme.leading c cs' :: ms, hgone, hds, hlength, hkept, ?_,
    .cons hcuts, ?_⟩
  · unfold FoundLexeme.Are at hfound ⊢
    rw [List.map_cons, hfound, FoundLexeme.placement, hpoint.placement]
    rfl
  · rw [Lexeme.joined_cons, ← List.append_assoc, hjoined]

theorem Resumes.passed {olds' : List Survivor} {ds es : List Lexeme}
    (hlength : olds'.length = ds.length)
    (h : Resumes lines pre rest (before ++ joined ds) olds es result) :
    Resumes lines pre rest before (olds' ++ olds) (ds ++ es) result := by
  obtain ⟨gone, kept, ds', es', ms, rfl, rfl, hlength', hkept, hfound, hcuts, hjoined⟩ := h
  refine ⟨olds' ++ gone, kept, ds ++ ds', es', ms, (List.append_assoc ..).symm,
    (List.append_assoc ..).symm, ?_, hkept, hfound, hcuts, ?_⟩
  · rw [List.length_append, List.length_append, hlength, hlength']
  · rw [hjoined, Lexeme.joined_append, List.append_assoc]

theorem resumes_rescan (fuel : Nat) {p : ReadPoint} (hfuel : p.rest.length ≤ fuel)
    (hpoint : Text.EndsAt lines pre p.offset p.position) (hstarts : StartAt olds before cs)
    (hall : before ++ joined cs = pre ++ p.rest) :
    Resumes lines pre p.rest before olds cs (rescan fuel p olds) := by
  -- By induction on the fuel: every lexeme that is found leaves less of the text.
  induction fuel generalizing pre p before olds cs with
  | zero =>
    have hrest : p.rest = [] := List.length_eq_zero_iff.mp (Nat.le_zero.mp hfuel)
    rw [hrest, List.append_nil] at hall
    rw [hrest]
    exact resumes_end hstarts hall
  | succ fuel ih =>
    cases hrest : p.rest with
    | nil =>
      have hcut := ReadPoint.cut?_of_nil hrest
      rw [hrest, List.append_nil] at hall
      simp only [rescan, hcut]
      exact resumes_end hstarts hall
    | cons c cs' =>
      have hcut := ReadPoint.cut?_of_cons hrest
      have hnext : pre ++ c :: cs' = pre ++ (Lexeme.leading c cs').text ++
          cs'.drop (Lexeme.leading c cs').rest.length := by
        rw [List.append_assoc, Lexeme.leading_text]
      have hfuel' : (cs'.drop (Lexeme.leading c cs').rest.length).length ≤ fuel := by
        rw [List.length_drop]
        rw [hrest, List.length_cons] at hfuel
        omega
      have hpoint' := hpoint.append (Lexeme.leading c cs').text
      obtain ⟨passed, hpassed⟩ := List.dropWhile_suffix (l := olds)
        fun o => decide (o.start < (p.offset : Int))
      rw [hrest] at hall
      simp only [rescan, hcut]
      generalize (olds.dropWhile fun o => decide (o.start < (p.offset : Int))) = left at hpassed ⊢
      subst hpassed
      obtain ⟨ds, es, rfl, hlength, hleft⟩ := hstarts.split
      rw [Lexeme.joined_append, ← List.append_assoc] at hall
      -- Old tokens that start before the point are given up. The next one is met here, or a lexeme
      -- is found and cutting goes on behind it.
      refine Resumes.passed hlength ?_
      cases left with
      | nil => exact (ih hfuel' hpoint' hleft (hall.trans hnext)).found hpoint
      | cons o left =>
        dsimp only
        split
        next hmatch =>
          simp only [matchesLexeme, Bool.and_eq_true, decide_eq_true_eq] at hmatch
          exact resumes_here hleft hall (hmatch.1.1.trans (congrArg Int.ofNat hpoint.offset))
        next => exact (ih hfuel' hpoint' hleft (hall.trans hnext)).found hpoint

end Survivor

def Shift.moveSight (lines : Bool) (m : Shift) (x : Kind × Text × Option Placement) :
    Kind × Text × Option Placement :=
  (x.1, x.2.1, x.2.2.map fun p => ((m.seen lines).move p).seen lines)

theorem Shift.moveSight_of_seen {lines : Bool} {m m' : Shift} (h : m.seen lines = m'.seen lines) :
    m.moveSight lines = m'.moveSight lines := by
  unfold Shift.moveSight
  rw [h]

namespace TokenStream

variable {lines : Bool} {s : TokenStream} {ls : List Lexeme}

theorem sight_of_moved {t t' : Timeline} {m : Shift} {token : Token}
    (h : t'.live? token.id = (t.live? token.id).map m.move) :
    t'.sight lines token = m.moveSight lines (t.sight lines token) := by
  have hmove : Placement.seen lines ∘ m.move =
      (fun p => ((m.seen lines).move p).seen lines) ∘ Placement.seen lines :=
    funext fun p => Shift.seen_move lines m p
  rw [Timeline.sight, h, Option.map_map, hmove, ← Option.map_map]
  rfl

theorem sights_of_moved {t t' : Timeline} {m : Shift} {ts : List Token}
    (h : ∀ token ∈ ts, t'.live? token.id = (t.live? token.id).map m.move) :
    ts.map (t'.sight lines) = (ts.map (t.sight lines)).map (m.moveSight lines) := by
  rw [List.map_map]
  exact List.map_congr_left fun token ht => sight_of_moved (h token ht)

theorem live_makeAll (found : List FoundLexeme) (s : TokenStream) {slot : Nat}
    (h : slot < s.nextId) : (makeAll found s).2.timeline.live? slot = s.timeline.live? slot := by
  induction found generalizing s with
  | nil => rfl
  | cons f fs ih =>
    have hmake := nextId_make s f.point f.lexeme
    exact (ih (s.make f.point f.lexeme).2 (by rw [hmake]; exact Nat.lt_succ_of_lt h)).trans
      (Timeline.live_register_of_lt _ h)

theorem makeAll_frame (found : List FoundLexeme) (s : TokenStream) :
    (makeAll found s).2 = { s with timeline := (makeAll found s).2.timeline } := by
  induction found generalizing s with
  | nil => rfl
  | cons f fs ih => exact ih (s.make f.point f.lexeme).2

theorem inStep_makeAll (found : List FoundLexeme) (s : TokenStream) (h : s.timeline.InStep) :
    (makeAll found s).2.timeline.InStep := by
  induction found generalizing s with
  | nil => exact h
  | cons f fs ih => exact ih (s.make f.point f.lexeme).2 (h.register _)

theorem sight_makeAll (found : List FoundLexeme) (s : TokenStream) :
    ((makeAll found s).1.map Prod.fst).map ((makeAll found s).2.timeline.sight lines) =
      found.map (FoundLexeme.sight lines) := by
  induction found generalizing s with
  | nil => rfl
  | cons f fs ih =>
    have hlive := live_makeAll fs (s.make f.point f.lexeme).2
      (by rw [nextId_make]; exact Nat.lt_succ_self s.nextId)
    have hnew : (s.make f.point f.lexeme).2.timeline.live? s.nextId = some f.placement :=
      Timeline.live_register ..
    simp only [makeAll, List.map_cons, ih]
    rw [FoundLexeme.sight, ← Option.map_some, ← hlive.trans hnew]
    rfl

theorem fault_makeAll (found : List FoundLexeme) (s : TokenStream) :
    (makeAll found s).1.map Prod.snd = found.map fun f => f.lexeme.fault := by
  induction found generalizing s with
  | nil => rfl
  | cons f fs ih => simp only [makeAll, List.map_cons, ih]

theorem live_freezeAll {t : Timeline} {removed : List Token} {slot : Nat}
    (h : ∀ token ∈ removed, token.id ≠ slot) :
    (removed.foldl (fun l t => l.freeze t.id) t).live? slot = t.live? slot := by
  induction removed generalizing t with
  | nil => rfl
  | cons token removed ih =>
    have htoken := h token List.mem_cons_self
    exact (ih fun t ht => h t (List.mem_cons_of_mem _ ht)).trans (Timeline.live_freeze_of_ne htoken)

theorem inStep_freezeAll {t : Timeline} (h : t.InStep) (removed : List Token) :
    (removed.foldl (fun l t => l.freeze t.id) t).InStep := by
  induction removed generalizing t with
  | nil => exact h
  | cons token removed ih => exact ih (h.freeze _)

theorem sights_before {before removed inserted pre : Text}
    (h : Text.size (pre ++ joined ls) ≤ Text.size (before ++ removed)) :
    (sights lines pre ls).map ((Shift.between before removed inserted).moveSight lines) =
      sights lines pre ls := by
  induction ls generalizing pre with
  | nil => rfl
  | cons l ls ih =>
    have hsize := l.size_pos
    rw [Lexeme.joined_cons, ← List.append_assoc] at h
    have hstart : (Placement.behind pre l.text).start < Text.size (before ++ removed) := by
      rw [Text.size_append, Text.size_append] at h
      change Text.size pre < _
      rw [Lexeme.size] at hsize
      omega
    rw [Lexeme.sights_cons, List.map_cons, ih h, Shift.moveSight, Option.map_some,
      ← Shift.seen_move, Shift.move_before hstart]

theorem sights_behind {before removed inserted m : Text}
    (hfits : Text.Fits lines (before ++ inserted ++ m ++ joined ls)) :
    (sights lines (before ++ removed ++ m) ls).map
        ((Shift.between before removed inserted).moveSight lines) =
      sights lines (before ++ inserted ++ m) ls := by
  induction ls generalizing m with
  | nil => rfl
  | cons l ls ih =>
    rw [Lexeme.joined_cons, ← List.append_assoc] at hfits
    have htail := ih (m := m ++ l.text) (by rwa [← List.append_assoc])
    rw [← List.append_assoc, ← List.append_assoc] at htail
    rw [Lexeme.sights_cons, Lexeme.sights_cons, List.map_cons, htail, Shift.moveSight,
      Option.map_some, ← Shift.seen_move, Shift.seen_move_between m l.text hfits.of_append]

theorem starts_behind {t : Timeline} {ts : List Token} {before removed m : Text} (inserted : Text)
    (h : ts.map (t.sight lines) = sights lines (before ++ removed ++ m) ls) :
    (ts.map fun token => ((t.location token).span.start : Int) +
        (Shift.between before removed inserted).byteOffset) =
      (spread (before ++ inserted ++ m) ls).map fun x => (Text.size x.1 : Int) := by
  induction ls generalizing ts m with
  | nil =>
    rw [List.map_eq_nil_iff.mp h]
    rfl
  | cons l ls ih =>
    obtain ⟨token, rest, rfl, htoken, hrest⟩ := List.map_eq_cons_iff.mp h
    have htail := ih (m := m ++ l.text) (by rwa [← List.append_assoc])
    rw [← List.append_assoc] at htail
    have hstart := (start_of_sight htoken).offset
    rw [List.map_cons, htail, Lexeme.spread, List.map_cons, hstart]
    congr 1
    simp only [Shift.between, Shift.ofReplacement, Text.size_append]
    omega

theorem start_of_report {t : Timeline} {ts : List Token} {before : Text}
    (h : ts.map (t.sight lines) = sights lines before ls) :
    ∀ r ∈ faultReports ts ls, Text.size before ≤ (r.location t.resolve).span.start ∧
      (r.location t.resolve).span.start < Text.size (before ++ joined ls) := by
  induction ls generalizing ts before with
  | nil =>
    intro r hr
    rw [List.map_eq_nil_iff.mp h] at hr
    exact absurd hr List.not_mem_nil
  | cons l ls ih =>
    obtain ⟨token, rest, rfl, htoken, hrest⟩ := List.map_eq_cons_iff.mp h
    have hlocation := (start_of_sight htoken).offset
    have hsize := l.size_pos
    have happend : Text.size (before ++ joined (l :: ls)) =
        Text.size before + (l.size + Text.size (joined ls)) := by
      rw [Lexeme.joined_cons, Text.size_append, Text.size_append]
      rfl
    intro r hr
    rw [faultReports, List.zip_cons_cons, List.filterMap_cons] at hr
    rw [happend]
    have htail : r ∈ faultReports rest ls → Text.size before ≤ (r.location t.resolve).span.start ∧
        (r.location t.resolve).span.start < Text.size before + (l.size + Text.size (joined ls)) := by
      intro hr
      obtain ⟨hle, hlt⟩ := ih hrest r hr
      have hbehind : Text.size (before ++ l.text) = Text.size before + l.size :=
        Text.size_append ..
      rw [Text.size_append, hbehind] at hlt
      omega
    split at hr
    · exact htail hr
    next report hreport =>
      rcases List.mem_cons.mp hr with rfl | hr
      · obtain ⟨code, -, rfl⟩ := Option.map_eq_some_iff.mp hreport
        have hstart : (Report.location t.resolve
            ⟨code, Lexeme.faultArgs code token.text, some (.token token)⟩).span.start =
              Text.size before := hlocation
        rw [hstart]
        omega
      · exact htail hr

theorem recorded_reportFaults (made : List (Token × Option Code)) (ms : List Lexeme)
    (s : TokenStream) (h : made.map Prod.snd = ms.map Lexeme.fault) :
    (made.foldl (fun r (t, fault) => r.reportFault t fault) s).reporter.recorded.toList =
      s.reporter.recorded.toList ++ faultReports (made.map Prod.fst) ms := by
  induction made generalizing s ms with
  | nil => exact (List.append_nil _).symm
  | cons x made ih =>
    cases ms with
    | nil => cases h
    | cons m ms =>
      obtain ⟨hfault, htail⟩ := List.cons.inj h
      have hfault : x.2 = m.fault := hfault
      rw [List.foldl_cons, ih ms _ htail, recorded_reportFault, hfault, List.append_assoc]
      congr 1
      simp only [faultReports, List.map_cons, List.zip_cons_cons, List.filterMap_cons]
      cases x.1.faultReport? m.fault <;> rfl

theorem reportFaults_frame (made : List (Token × Option Code)) (s : TokenStream) :
    made.foldl (fun r (t, fault) => r.reportFault t fault) s =
      { s with reporter :=
          (made.foldl (fun r (t, fault) => r.reportFault t fault) s).reporter } := by
  induction made generalizing s with
  | nil => rfl
  | cons x made ih =>
    rw [List.foldl_cons, ih]
    obtain ⟨token, fault⟩ := x
    cases fault <;> rfl

theorem recorded_recordAll (reports : Array (Report Anchor)) (r : Reporter Anchor) :
    (reports.foldl Reporter.record r).recorded.toList = r.recorded.toList ++ reports.toList := by
  rw [← Array.foldl_toList]
  induction reports.toList generalizing r with
  | nil => exact (List.append_nil _).symm
  | cons report reports ih =>
    rw [List.foldl_cons, ih]
    simp [Reporter.record]

section Exchange

variable (s : TokenStream) (first count : Nat) (text : Text)

def startOfReport (r : Report Anchor) : Nat := (r.location s.timeline.resolve).span.start

def exchangeBefore : Array (Report Anchor) :=
  s.reporter.recorded.filter fun r => s.startOfReport r < (s.startOf first).1

def exchangeBehind : Array (Report Anchor) :=
  match (s.rescanned first count text).2 with
  | [] => #[]
  | t :: _ => s.reporter.recorded.filter fun r =>
    (s.startOf first).1 ≤ s.startOfReport r && (s.location t).span.start ≤ s.startOfReport r

def exchangeFilled : TokenStream :=
  { (s.exchangeMade first count text).2 with
    tokens := (s.tokens.toList.take first ++ (s.exchangeMade first count text).1.map Prod.fst ++
      (s.rescanned first count text).2).toArray
    reporter :=
      { (s.exchangeMade first count text).2.reporter with recorded := s.exchangeBefore first } }

def exchangeReported : TokenStream :=
  (s.exchangeMade first count text).1.foldl (fun r (t, fault) => r.reportFault t fault)
    { s.exchangeFilled first count text with point := (s.exchangeFilled first count text).endPoint }

theorem exchange_stream : (s.exchange first count text).2 =
    { s.exchangeReported first count text with
      reporter := (s.exchangeBehind first count text).foldl Reporter.record
        (s.exchangeReported first count text).reporter } := rfl

theorem exchange_frame : (s.exchange first count text).2 =
    { s.exchangeFilled first count text with
      point := (s.exchangeFilled first count text).endPoint
      reporter := (s.exchange first count text).2.reporter } := by
  have hframe := reportFaults_frame (s.exchangeMade first count text).1
    { s.exchangeFilled first count text with point := (s.exchangeFilled first count text).endPoint }
  rw [exchange_stream, exchangeReported, hframe]

theorem timeline_exchange : (s.exchange first count text).2.timeline =
    (s.exchangeMade first count text).2.timeline := by
  rw [exchange_frame]
  rfl

theorem exchange_recorded {ms : List Lexeme}
    (h : (s.exchangeMade first count text).1.map Prod.snd = ms.map Lexeme.fault) :
    (s.exchange first count text).2.reporter.recorded.toList =
      (s.exchangeBefore first).toList ++
        faultReports ((s.exchangeMade first count text).1.map Prod.fst) ms ++
        (s.exchangeBehind first count text).toList := by
  rw [exchange_stream, recorded_recordAll, exchangeReported, recorded_reportFaults _ ms _ h]
  rfl

theorem exchangeFilled_tokens : (s.exchangeFilled first count text).tokens.toList =
    s.tokens.toList.take first ++ (s.exchangeMade first count text).1.map Prod.fst ++
      (s.rescanned first count text).2 := rfl

theorem exchangeFilled_source : (s.exchangeFilled first count text).source =
    s.exchangedSource first count text := by
  rw [exchangeFilled, exchangeMade, makeAll_frame]

end Exchange

theorem endPoint_of_sights (h : s.tokens.toList.map (s.timeline.sight lines) = sights lines [] ls)
    (hsource : s.source = joined ls) :
    Text.EndsAt lines (joined ls) s.endPoint.offset s.endPoint.position := by
  refine ⟨congrArg Text.size hsource, fun hlines => ?_⟩
  rw [endPoint, ← Array.getLast?_toList]
  rcases List.eq_nil_or_concat ls with rfl | ⟨ls, l, rfl⟩
  · rw [List.map_eq_nil_iff.mp h]
    rfl
  · rw [List.concat_eq_append, Lexeme.sights_append] at h
    obtain ⟨ts, us, htokens, -, hlast⟩ := List.map_eq_append_iff.mp h
    obtain ⟨token, rest, rfl, htoken, hrest⟩ := List.map_eq_cons_iff.mp hlast
    rw [List.map_eq_nil_iff.mp hrest] at htokens
    have hstop := (stop_of_sight htoken).position hlines
    rw [htokens, List.getLast?_concat, List.concat_eq_append, Lexeme.joined_append,
      Lexeme.joined_cons, Lexeme.joined_nil, List.append_nil]
    exact hstop

/-- A stream that has read all of its source, with its tokens and their lexemes cut in three. -/
structure Parted (lines : Bool) (s : TokenStream) (ts us vs : List Token)
    (as bs cs : List Lexeme) : Prop where
  tokens : s.tokens.toList = ts ++ us ++ vs
  source : s.source = joined as ++ joined bs ++ joined cs
  point : Text.EndsAt lines s.source s.point.offset s.point.position
  first : ts.map (s.timeline.sight lines) = sights lines [] as
  second : us.map (s.timeline.sight lines) = sights lines (joined as) bs
  third : vs.map (s.timeline.sight lines) = sights lines (joined as ++ joined bs) cs
  reports : s.reporter.recorded.toList =
    faultReports ts as ++ faultReports us bs ++ faultReports vs cs
  inStep : s.timeline.InStep

theorem Lays.parted {as bs cs : List Lexeme} (h : s.Lays lines (as ++ bs ++ cs))
    (hsource : s.source = joined (as ++ bs ++ cs)) {ts us vs : List Token}
    (htokens : s.tokens.toList = ts ++ us ++ vs) (hts : ts.length = as.length)
    (hus : us.length = bs.length) : s.Parted lines ts us vs as bs cs := by
  have hpoint := h.point
  have hsights := h.sights
  have hreports := h.reports
  rw [← hsource] at hpoint
  rw [htokens, List.map_append, List.map_append, Lexeme.sights_append, Lexeme.sights_append,
    Lexeme.joined_append, List.nil_append, List.nil_append] at hsights
  rw [htokens, faultReports_append (by simp [hts, hus]), faultReports_append hts] at hreports
  rw [Lexeme.joined_append, Lexeme.joined_append] at hsource
  obtain ⟨hfront, hthird⟩ := List.append_inj hsights (by simp [hts, hus])
  obtain ⟨hfirst, hsecond⟩ := List.append_inj hfront (by simp [hts])
  exact ⟨htokens, hsource, hpoint, hfirst, hsecond, hthird, hreports, h.inStep⟩

theorem ShowsAll.lays (h : s.ShowsAll lines) {as bs cs : List Lexeme}
    (hlexemes : Lexeme.all s.source = as ++ bs ++ cs) :
    s.Lays lines (as ++ bs ++ cs) ∧ s.source = joined (as ++ bs ++ cs) := by
  rw [← hlexemes, Lexeme.joined_all]
  exact ⟨h.1.toLays, rfl⟩

theorem ShowsAll.parted (h : s.ShowsAll lines) {ts us vs : List Token} {as bs cs : List Lexeme}
    (htokens : s.tokens.toList = ts ++ us ++ vs)
    (hlexemes : Lexeme.all s.source = as ++ bs ++ cs) (hts : ts.length = as.length)
    (hus : us.length = bs.length) : s.Parted lines ts us vs as bs cs := by
  obtain ⟨hlays, hsource⟩ := h.lays hlexemes
  exact hlays.parted hsource htokens hts hus

theorem startOf_of_sights {ts us vs : List Token} {before : Text} {l : Lexeme}
    (htokens : s.tokens.toList = ts ++ us ++ vs)
    (hsights : us.map (s.timeline.sight lines) = sights lines before (l :: ls)) :
    Text.EndsAt lines before (s.startOf ts.length).1 (s.startOf ts.length).2 := by
  obtain ⟨token, rest, rfl, htoken, -⟩ := List.map_eq_cons_iff.mp hsights
  have hget : s.tokens[ts.length]? = some token := by
    rw [← Array.getElem?_toList, htokens, List.append_assoc,
      List.getElem?_append_right (Nat.le_refl _), Nat.sub_self]
    rfl
  rw [TokenStream.startOf, hget]
  exact start_of_sight htoken

theorem endOf_of_sights {ts us vs : List Token} {before : Text} {l : Lexeme}
    (htokens : s.tokens.toList = ts ++ us ++ vs)
    (hsights : us.map (s.timeline.sight lines) = sights lines before (ls ++ [l])) :
    Text.EndsAt lines (before ++ joined (ls ++ [l])) (s.endOf ts.length us.length).1
      (s.endOf ts.length us.length).2 := by
  rw [Lexeme.sights_append] at hsights
  obtain ⟨front, rest, rfl, -, hlast⟩ := List.map_eq_append_iff.mp hsights
  obtain ⟨token, rest, rfl, htoken, hrest⟩ := List.map_eq_cons_iff.mp hlast
  have hrest := List.map_eq_nil_iff.mp hrest
  subst hrest
  have hlength : (front ++ [token]).length = front.length + 1 := by simp
  have hget : s.tokens[ts.length + (front.length + 1) - 1]? = some token := by
    rw [← Array.getElem?_toList, htokens, List.append_assoc, List.append_assoc,
      List.getElem?_append_right (by omega), List.getElem?_append_right (by omega)]
    have hindex : ts.length + (front.length + 1) - 1 - ts.length - front.length = 0 := by omega
    rw [hindex]
    rfl
  rw [hlength]
  unfold TokenStream.endOf
  simp only [hget, Lexeme.joined_append, Lexeme.joined_cons, Lexeme.joined_nil, List.append_nil,
    ← List.append_assoc]
  exact stop_of_sight htoken

namespace Parted

variable {ts us vs : List Token} {as bs cs : List Lexeme} (h : s.Parted lines ts us vs as bs cs)
include h

theorem lengths : ts.length = as.length ∧ us.length = bs.length ∧ vs.length = cs.length := by
  have hfirst := congrArg List.length h.first
  have hsecond := congrArg List.length h.second
  have hthird := congrArg List.length h.third
  simp only [List.length_map, Lexeme.length_sights] at hfirst hsecond hthird
  exact ⟨hfirst, hsecond, hthird⟩

theorem take_tokens : s.tokens.toList.take ts.length = ts := by
  rw [h.tokens, List.append_assoc, List.take_left]

theorem run_tokens : (s.tokens.toList.drop ts.length).take us.length = us := by
  rw [h.tokens, List.append_assoc, List.drop_left, List.take_left]

theorem drop_tokens : s.tokens.toList.drop (ts.length + us.length) = vs := by
  rw [h.tokens, ← List.length_append, List.drop_left]

theorem startOf : Text.EndsAt lines (joined as) (s.startOf ts.length).1
    (s.startOf ts.length).2 := by
  have htokens := h.tokens
  have hsights : (us ++ vs).map (s.timeline.sight lines) = sights lines (joined as) (bs ++ cs) := by
    rw [List.map_append, h.second, h.third, Lexeme.sights_append]
  have hsource := h.source
  have hpoint := h.point
  rw [List.append_assoc] at htokens
  rw [List.append_assoc, ← Lexeme.joined_append] at hsource
  generalize us ++ vs = rest at htokens hsights
  generalize bs ++ cs = ls at hsights hsource
  cases ls with
  | nil =>
    have hnone : s.tokens[ts.length]? = none := by
      rw [← Array.getElem?_toList, htokens, List.map_eq_nil_iff.mp hsights]
      exact List.getElem?_eq_none (by simp)
    rw [hsource, Lexeme.joined_nil, List.append_nil] at hpoint
    rw [TokenStream.startOf, hnone, hsource, Lexeme.joined_nil, List.append_nil]
    exact ⟨rfl, hpoint.position⟩
  | cons l ls => exact startOf_of_sights (htokens.trans (List.append_nil _).symm) hsights

theorem endOf : Text.EndsAt lines (joined as ++ joined bs) (s.endOf ts.length us.length).1
    (s.endOf ts.length us.length).2 := by
  have hsecond := h.second
  rcases List.eq_nil_or_concat bs with rfl | ⟨bs, b, rfl⟩
  · have hus := List.map_eq_nil_iff.mp hsecond
    rw [hus, Lexeme.joined_nil, List.append_nil]
    exact h.startOf
  · rw [List.concat_eq_append] at hsecond ⊢
    exact endOf_of_sights h.tokens hsecond

theorem exchangeShift (text : Text) : (s.exchangeShift ts.length us.length text).seen lines =
    (Shift.between (joined as) (joined bs) text).seen lines := h.startOf.shift h.endOf text

theorem byteOffset (text : Text) : (s.exchangeShift ts.length us.length text).byteOffset =
    (Text.size text : Int) - Text.size (joined bs) := by
  rw [TokenStream.exchangeShift, h.startOf.offset, h.endOf.offset]
  exact Shift.byteOffset_between

theorem exchangedSource (text : Text) : s.exchangedSource ts.length us.length text =
    joined as ++ text ++ joined cs := by
  rw [TokenStream.exchangedSource, h.startOf.offset, h.endOf.offset, h.source]
  exact Text.splice_append ..

theorem rest_exchangePoint (text : Text) :
    (s.exchangePoint ts.length us.length text).rest = text ++ joined cs := by
  have hdrop := Text.dropBytes_size_append (joined as) (text ++ joined cs)
  rw [← List.append_assoc] at hdrop
  rw [TokenStream.exchangePoint, h.exchangedSource, h.startOf.offset, hdrop]

theorem survivors (text : Text) : Survivor.StartAt (s.survivors ts.length us.length text)
    (joined as ++ text) cs ∧ (s.survivors ts.length us.length text).map Survivor.token = vs := by
  rw [TokenStream.survivors, h.drop_tokens]
  refine ⟨?_, ?_⟩
  · have hthird := h.third
    rw [← List.append_nil (joined as ++ joined bs)] at hthird
    have hstarts := starts_behind text hthird
    rw [List.append_nil, Shift.byteOffset_between, ← h.byteOffset] at hstarts
    unfold Survivor.StartAt
    rw [List.map_map]
    exact hstarts
  · rw [List.map_map]
    exact List.map_id _

/-- Rescanning starts on the new text and comes to some of the old tokens behind it. -/
theorem resumes (text : Text) :
    Survivor.Resumes lines (joined as) (text ++ joined cs) (joined as ++ text)
      (s.survivors ts.length us.length text) cs (s.rescanned ts.length us.length text) := by
  have hrest := h.rest_exchangePoint text
  have hall : joined as ++ text ++ joined cs =
      joined as ++ (s.exchangePoint ts.length us.length text).rest := by
    rw [hrest, List.append_assoc]
  rw [← hrest, rescanned]
  exact Survivor.resumes_rescan _ (Nat.le_refl _) h.startOf (h.survivors text).1 hall

theorem exchangeBefore : (s.exchangeBefore ts.length).toList = faultReports ts as := by
  obtain ⟨hts, hus, -⟩ := h.lengths
  have hfirst := start_of_report h.first
  have hsecond := start_of_report h.second
  have hthird := start_of_report h.third
  rw [List.nil_append] at hfirst
  rw [TokenStream.exchangeBefore, Array.toList_filter, h.reports, h.startOf.offset, List.append_assoc,
    List.filter_append, List.filter_eq_self.mpr, List.filter_eq_nil_iff.mpr, List.append_nil]
  · intro r hr
    have hstart : Text.size (joined as) ≤ s.startOfReport r := by
      rcases List.mem_append.mp hr with hr | hr
      · exact (hsecond r hr).1
      · have hle := (hthird r hr).1
        rw [Text.size_append] at hle
        exact Nat.le_trans (Nat.le_add_right ..) hle
    simpa using hstart
  · intro r hr
    exact decide_eq_true (hfirst r hr).2

end Parted

theorem Parted.exchangeBehind {ts us vs : List Token} {as bs cs : List Lexeme}
    (h : s.Parted lines ts us vs as bs cs) (count : Nat) (text : Text)
    (hkept : (s.rescanned ts.length count text).2 = vs) :
    (s.exchangeBehind ts.length count text).toList = faultReports vs cs := by
  have hfirst := start_of_report h.first
  have hsecond := start_of_report h.second
  have hthird := start_of_report h.third
  rw [List.nil_append] at hfirst
  unfold TokenStream.exchangeBehind
  rw [hkept]
  cases vs with
  | nil => rfl
  | cons t vs =>
    have hstart : (s.location t).span.start = Text.size (joined as ++ joined bs) := by
      cases cs with
      | nil => cases h.third
      | cons c cs => exact (start_of_sight (List.cons.inj h.third).1).offset
    dsimp only
    -- Reports about kept tokens start where the first of these does or later, the others before.
    rw [Array.toList_filter, h.reports, h.startOf.offset, hstart, List.filter_append,
      List.filter_eq_nil_iff.mpr, List.filter_eq_self.mpr, List.nil_append]
    · intro r hr
      have hle := (hthird r hr).1
      have hle' : Text.size (joined as) ≤ s.startOfReport r := by
        rw [Text.size_append] at hle
        exact Nat.le_trans (Nat.le_add_right ..) hle
      exact Bool.and_eq_true_iff.mpr ⟨decide_eq_true hle', decide_eq_true hle⟩
    · intro r hr
      have hlt : s.startOfReport r < Text.size (joined as ++ joined bs) := by
        rcases List.mem_append.mp hr with hr | hr
        · have hlt := (hfirst r hr).2
          rw [Text.size_append]
          exact Nat.lt_of_lt_of_le hlt (Nat.le_add_right ..)
        · exact (hsecond r hr).2
      simp only [Bool.and_eq_true, decide_eq_true_eq, not_and, Nat.not_le]
      exact fun _ => hlt

theorem sight_exchangeMade (s : TokenStream) (first count : Nat) (text : Text) :
    ((s.exchangeMade first count text).1.map Prod.fst).map
        ((s.exchangeMade first count text).2.timeline.sight lines) =
      (s.rescanned first count text).1.map (FoundLexeme.sight lines) :=
  sight_makeAll ..

theorem live_exchangeMade {first count : Nat} {text : Text} {t : Token} (hstep : s.timeline.InStep)
    (hlt : t.id < s.nextId) (hstays : ∀ r ∈ s.exchangeRemoved first count text, r.id ≠ t.id) :
    (s.exchangeMade first count text).2.timeline.live? t.id =
      (s.timeline.live? t.id).map (s.exchangeShift first count text).move := by
  have hnext : nextId { s with
      source := s.exchangedSource first count text
      timeline := s.exchangeTimeline first count text } = s.nextId := nextId_freeze _ _
  rw [exchangeMade, live_makeAll _ _ (hnext.symm ▸ hlt), exchangeTimeline,
    Timeline.live_record (inStep_freezeAll hstep _), live_freezeAll hstays]

theorem sights_exchangeMade {first count : Nat} {text before : Text} {ts : List Token}
    (hstep : s.timeline.InStep) (hsights : ts.map (s.timeline.sight lines) = sights lines before ls)
    (hts : ∀ t ∈ ts, ∀ r ∈ s.exchangeRemoved first count text, r.id ≠ t.id) :
    ts.map ((s.exchangeMade first count text).2.timeline.sight lines) =
      (sights lines before ls).map ((s.exchangeShift first count text).moveSight lines) := by
  rw [← hsights]
  exact sights_of_moved fun t ht =>
    live_exchangeMade hstep (lt_of_sights hsights t ht) (hts t ht)

theorem inStep_exchangeMade (first count : Nat) (text : Text) (h : s.timeline.InStep) :
    (s.exchangeMade first count text).2.timeline.InStep :=
  inStep_makeAll _ _ ((inStep_freezeAll h _).record _)

theorem Parted.removed {ts us vs : List Token} {as bs cs : List Lexeme}
    (h : s.Parted lines ts us vs as bs cs) (count : Nat) (text : Text)
    (hkept : (s.rescanned ts.length count text).2 = vs) :
    s.exchangeRemoved ts.length count text = us := by
  have hsize : s.tokens.size = ts.length + us.length + vs.length := by
    rw [← Array.length_toList, h.tokens]
    simp only [List.length_append]
  have hcount : s.tokens.size - ts.length - vs.length = us.length := by omega
  rw [TokenStream.exchangeRemoved, hkept, hcount, h.run_tokens]

theorem Parted.distinct {ts us vs : List Token} {as bs cs : List Lexeme}
    (h : s.Parted lines ts us vs as bs cs) (hnumbered : s.Numbered) :
    (∀ t ∈ ts, ∀ r ∈ us, r.id ≠ t.id) ∧ (∀ t ∈ vs, ∀ r ∈ us, r.id ≠ t.id) := by
  have hnodup := hnumbered.nodup
  rw [h.tokens, List.map_append, List.map_append, List.nodup_append, List.nodup_append] at hnodup
  obtain ⟨⟨-, -, hfront⟩, -, hback⟩ := hnodup
  refine ⟨fun t ht r hr => ?_, fun t ht r hr => ?_⟩
  · exact (hfront _ (List.mem_map_of_mem ht) _ (List.mem_map_of_mem hr)).symm
  · exact hback _ (List.mem_append_right _ (List.mem_map_of_mem hr)) _ (List.mem_map_of_mem ht)

theorem Parted.sights_exchangeFilled {ts us vs : List Token} {as bs cs ms : List Lexeme}
    {count : Nat} {text removed m : Text} (h : s.Parted lines ts us vs as bs cs)
    (hnumbered : s.Numbered) (hbs : joined bs = removed ++ m)
    (hshift : (s.exchangeShift ts.length count text).seen lines =
      (Shift.between (joined as) removed text).seen lines)
    (hkept : (s.rescanned ts.length count text).2 = vs)
    (hmade : ((s.exchangeMade ts.length count text).1.map Prod.fst).map
      ((s.exchangeMade ts.length count text).2.timeline.sight lines) = sights lines (joined as) ms)
    (hjoined : joined as ++ joined ms = joined as ++ text ++ m)
    (hfits : Text.Fits lines (joined as ++ text ++ m ++ joined cs)) :
    (s.exchangeFilled ts.length count text).tokens.toList.map
        ((s.exchangeFilled ts.length count text).timeline.sight lines) =
      sights lines [] (as ++ ms ++ cs) := by
  obtain ⟨hother, hother'⟩ := h.distinct hnumbered
  rw [← h.removed count text hkept] at hother hother'
  have hfirst := sights_exchangeMade h.inStep h.first hother
  have hthird := sights_exchangeMade h.inStep h.third hother'
  have hbefore : (sights lines [] as).map ((Shift.between (joined as) removed text).moveSight lines) =
      sights lines [] as := sights_before (by simp)
  have hbehind : (sights lines (joined as ++ removed ++ m) cs).map
      ((Shift.between (joined as) removed text).moveSight lines) =
        sights lines (joined as ++ text ++ m) cs := sights_behind hfits
  have hmove : (s.exchangeShift ts.length count text).moveSight lines =
      (Shift.between (joined as) removed text).moveSight lines := Shift.moveSight_of_seen hshift
  rw [hmove, hbefore] at hfirst
  rw [hmove, hbs, ← List.append_assoc, hbehind, ← hjoined] at hthird
  rw [exchangeFilled_tokens, h.take_tokens, hkept, List.map_append, List.map_append,
    Lexeme.sights_append, Lexeme.sights_append, Lexeme.joined_append, List.nil_append,
    List.nil_append, ← hfirst, ← hmade, ← hthird]
  rfl

theorem lays_exchange_of_sights {first count : Nat} {text : Text} (hstep : s.timeline.InStep)
    (hsource : s.exchangedSource first count text = joined ls)
    (hsights : (s.exchangeFilled first count text).tokens.toList.map
      ((s.exchangeFilled first count text).timeline.sight lines) = sights lines [] ls)
    (hreports : (s.exchange first count text).2.reporter.recorded.toList =
      faultReports (s.exchangeFilled first count text).tokens.toList ls) :
    (s.exchange first count text).2.Lays lines ls ∧
      (s.exchange first count text).2.point.rest = [] ∧
      (s.exchange first count text).2.source = joined ls := by
  have hfilled : (s.exchangeFilled first count text).source = joined ls := by
    rw [exchangeFilled_source, hsource]
  have hpoint := endPoint_of_sights hsights hfilled
  refine ⟨{ point := ?_, sights := ?_, reports := ?_, inStep := ?_ }, ?_, ?_⟩
  · rw [exchange_frame]
    exact hpoint
  · rw [exchange_frame]
    exact hsights
  · rw [hreports, exchange_frame]
  · rw [exchange_frame]
    exact inStep_exchangeMade _ _ _ hstep
  · rw [exchange_frame]
    rfl
  · rw [exchange_frame]
    exact hfilled

/-- An exchange in a stream that has read all of its source. The lexemes before the exchanged ones
stay. What comes behind them is cut out of the new text and what follows it, up to the start of some
of the old lexemes, which stay as well. -/
theorem lays_exchange {ts us vs : List Token} {as bs cs : List Lexeme} (text : Text)
    (hlays : s.Lays lines (as ++ bs ++ cs)) (hsource : s.source = joined (as ++ bs ++ cs))
    (hnumbered : s.Numbered) (htokens : s.tokens.toList = ts ++ us ++ vs)
    (hts : ts.length = as.length) (hus : us.length = bs.length)
    (hfits : Text.Fits lines (joined as ++ text ++ joined cs)) :
    ∃ ms ds es, cs = ds ++ es ∧ Cuts (text ++ joined cs) ms (joined es) ∧
      (s.exchange ts.length us.length text).2.Lays lines (as ++ ms ++ es) ∧
      (s.exchange ts.length us.length text).2.point.rest = [] ∧
      (s.exchange ts.length us.length text).2.source = joined (as ++ ms ++ es) ∧
      joined (as ++ ms ++ es) = joined as ++ text ++ joined cs := by
  have h := hlays.parted hsource htokens hts hus
  have hsurvivors := (h.survivors text).2
  -- The old tokens are cut in three anew: the tokens that rescanning gave up leave as well.
  obtain ⟨gone, stay, ds, es, ms, holds, rfl, hgone, hkept, hfound, hcuts, hjoined⟩ :=
    h.resumes text
  rw [holds, List.map_append] at hsurvivors
  have hlexemes : as ++ bs ++ (ds ++ es) = as ++ (bs ++ ds) ++ es := by
    simp only [List.append_assoc]
  have hsplit : s.Parted lines ts (us ++ gone.map Survivor.token) (stay.map Survivor.token) as
      (bs ++ ds) es := by
    refine (hlexemes ▸ hlays).parted (hlexemes ▸ hsource) ?_ hts ?_
    · rw [htokens, ← hsurvivors]
      simp only [List.append_assoc]
    · simp only [List.length_append, List.length_map, hus, hgone]
  have hnew : joined as ++ text ++ joined (ds ++ es) = joined (as ++ ms ++ es) := by
    rw [Lexeme.joined_append, Lexeme.joined_append, Lexeme.joined_append, ← List.append_assoc,
      ← hjoined]
  have hmade := (s.sight_exchangeMade ts.length us.length text).trans hfound.sights
  have hfaults : (s.exchangeMade ts.length us.length text).1.map Prod.snd = ms.map Lexeme.fault := by
    rw [← hfound.lexemes, List.map_map]
    exact fault_makeAll ..
  have hmadeLength : ((s.exchangeMade ts.length us.length text).1.map Prod.fst).length =
      ms.length := by
    have hlength := congrArg List.length hmade
    rwa [List.length_map, Lexeme.length_sights] at hlength
  have hsights := hsplit.sights_exchangeFilled hnumbered (Lexeme.joined_append ..)
    (h.exchangeShift text) hkept hmade hjoined
    (by rwa [Lexeme.joined_append, ← List.append_assoc] at hfits)
  have hreports := s.exchange_recorded ts.length us.length text hfaults
  rw [hsplit.exchangeBefore, hsplit.exchangeBehind _ _ hkept] at hreports
  obtain ⟨hlays', hrest', hsource'⟩ :=
    lays_exchange_of_sights h.inStep ((h.exchangedSource text).trans hnew) hsights (by
      rw [hreports, exchangeFilled_tokens, h.take_tokens, hkept, faultReports_append,
        faultReports_append hts]
      rw [List.length_append, List.length_append, hmadeLength, hts])
  exact ⟨ms, ds, es, rfl, hcuts, hlays', hrest', hsource', hnew.symm⟩

theorem shows_exchange {ts us vs : List Token} {as bs cs : List Lexeme} (text : Text)
    (hall : s.ShowsAll lines) (hnumbered : s.Numbered) (htokens : s.tokens.toList = ts ++ us ++ vs)
    (hlexemes : Lexeme.all s.source = as ++ bs ++ cs) (hts : ts.length = as.length)
    (hus : us.length = bs.length)
    (hstable : Cuts (joined as ++ text ++ joined cs) as (text ++ joined cs))
    (hfits : Text.Fits lines (joined as ++ text ++ joined cs)) :
    (s.exchange ts.length us.length text).2.ShowsAll lines ∧
      (s.exchange ts.length us.length text).2.source = joined as ++ text ++ joined cs := by
  obtain ⟨hlays, hsource⟩ := hall.lays hlexemes
  obtain ⟨ms, ds, es, rfl, hcuts, hlays', hrest', hsource', hnew⟩ :=
    lays_exchange text hlays hsource hnumbered htokens hts hus hfits
  have hold := Cuts.all s.source
  rw [hlexemes, ← List.append_assoc] at hold
  have hcut := (hstable.append hcuts).append hold.drop
  rw [← hnew, ← hsource'] at hcut
  have hshows : (s.exchange ts.length us.length text).2.Shows lines (as ++ ms ++ es) :=
    ⟨hlays', hrest'.symm ▸ hcut⟩
  exact ⟨hshows.showsAll hrest', hsource'.trans hnew⟩

end TokenStream

end Reparse
