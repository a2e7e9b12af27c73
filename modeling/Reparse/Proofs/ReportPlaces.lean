import Reparse.Proofs.Grammar.Courses.Definitions
import Reparse.Proofs.Innermost
import Reparse.Proofs.SameTokens

/-!
# Places of reports

Reports outlive the parse that made them, and the text moves on. Right after any parse each of them
is where it has to be: at the token it is about, at the target that was rejected, or at what stands
in the place of what is missing. Where nothing stands there, that is the end of the source,
whichever token was the last one when the report was first made.
-/

namespace Reparse

open Reparse.Parser

namespace TokenStream

def region (s : TokenStream) (i j : Nat) : Location where
  span := ⟨Text.size ((s.tokens.toList.take i).flatMap Token.text),
    Text.size ((s.tokens.toList.take j).flatMap Token.text)⟩
  range := ⟨Position.origin.advance ((s.tokens.toList.take i).flatMap Token.text),
    Position.origin.advance ((s.tokens.toList.take j).flatMap Token.text)⟩

def whole (s : TokenStream) : Location where
  span := ⟨0, Text.size s.source⟩
  range := ⟨.origin, Position.origin.advance s.source⟩

def endOfSource (s : TokenStream) : Location :=
  .point (Text.size s.source) (Position.origin.advance s.source)

/-- A region of the source that begins and ends where tokens do. Lines and columns count only if
`lines` is set. -/
structure Bounds (lines : Bool) (s : TokenStream) (l : Location) : Prop where
  span : l.span.start ≤ l.span.stop
  range : lines = true → l.range.start ≤ l.range.stop
  within : (l.seen lines).Within (s.whole.seen lines)
  boundaries : ∃ i j, i ≤ j ∧ j ≤ s.tokens.size ∧ l.seen lines = (s.region i j).seen lines

end TokenStream

theorem Location.seen_stop {lines : Bool} {l m : Location} (h : l.seen lines = m.seen lines) :
    (Location.point l.span.stop l.range.stop).seen lines =
      (Location.point m.span.stop m.range.stop).seen lines := by
  cases lines with
  | true => exact congrArg (fun l : Location => Location.point l.span.stop l.range.stop) h
  | false =>
    have hspan := Location.span_of_seen h
    exact congrArg (fun s : Span => (⟨.point s.stop, .point .origin⟩ : Location)) hspan

namespace TokenStream.Covers

variable {lines : Bool} {s : TokenStream} {ls : List Lexeme} {i j : Nat} {t : Token} {l : Location}

theorem texts_take (h : s.Covers lines ls) (i : Nat) :
    (s.tokens.toList.take i).flatMap Token.text = Lexeme.joined (ls.take i) := by
  have htexts : s.tokens.toList.map Token.text = ls.map Lexeme.text := by
    have hwords := congrArg (List.map Prod.snd) h.words
    rwa [List.map_map, List.map_map] at hwords
  rw [Lexeme.joined, List.flatMap_def, List.flatMap_def, List.map_take, List.map_take, htexts]

theorem region_eq (h : s.Covers lines ls) (i j : Nat) : s.region i j = Lexeme.region ls i j := by
  rw [region, h.texts_take, h.texts_take]
  rfl

theorem location_seen_region (h : s.Covers lines ls) (ht : s.tokens[i]? = some t) :
    (s.location t).seen lines = (s.region i (i + 1)).seen lines := by
  rw [h.location_seen ht, h.region_eq]

theorem region_size (h : s.Covers lines ls) (hrest : s.point.rest = []) :
    s.region s.tokens.size s.tokens.size = s.endOfSource := by
  have hall : (s.tokens.toList.take s.tokens.size).flatMap Token.text = s.source := by
    rw [← Array.length_toList, List.take_length, h.covered hrest]
  rw [region, hall]
  rfl

theorem bounds_region (h : s.Covers lines ls) (hrest : s.point.rest = []) (hij : i ≤ j)
    (hj : j ≤ s.tokens.size) (hl : l.seen lines = (s.region i j).seen lines) :
    s.Bounds lines l := by
  have hregion := h.region_eq i j
  have hinside : (s.region i j).Within s.whole := by
    have hwhole : s.whole = Lexeme.region ls 0 ls.length := by
      have hsource : s.source = Lexeme.joined ls := by rw [← h.covered hrest, h.texts]
      rw [whole, Lexeme.region, List.take_length, hsource]
      rfl
    have hlength : j ≤ ls.length := by rwa [← h.length, Array.length_toList]
    rw [hregion, hwhole]
    exact Lexeme.region_within (Nat.zero_le i) hlength
  refine ⟨?_, fun hlines => ?_, ?_, i, j, hij, hj, hl⟩
  · rw [Location.span_of_seen hl, hregion]
    exact Lexeme.size_joined_take_le ls hij
  · rw [Location.eq_of_seen hl hlines, hregion]
    exact Lexeme.advance_take_le ls hij
  · rw [hl]
    exact hinside.seen lines

theorem bounds_location (h : s.Covers lines ls) (hrest : s.point.rest = []) (ht : t ∈ s.tokens) :
    s.Bounds lines (s.location t) := by
  obtain ⟨j, hj⟩ := Array.mem_iff_getElem?.mp ht
  have hlt := (Array.getElem?_eq_some_iff.mp hj).1
  exact h.bounds_region hrest (Nat.le_succ j) hlt (h.location_seen_region hj)

theorem bounds_endOfSource (h : s.Covers lines ls) (hrest : s.point.rest = [])
    (hl : l.seen lines = s.endOfSource.seen lines) : s.Bounds lines l := by
  rw [← h.region_size hrest] at hl
  exact h.bounds_region hrest (Nat.le_refl _) (Nat.le_refl _) hl

theorem locationBehind_back (h : s.Covers lines ls) (hrest : s.point.rest = [])
    (ht : s.tokens.back? = some t) :
    (s.timeline.locationBehind t).seen lines = s.endOfSource.seen lines := by
  rw [Array.back?_eq_getElem?] at ht
  have hpos : s.tokens.size ≠ 0 := by
    intro hzero
    rw [hzero, Array.getElem?_eq_none (Nat.le_of_eq hzero)] at ht
    cases ht
  have hlocation := h.location_seen_region ht
  rw [Nat.sub_add_cancel (Nat.pos_of_ne_zero hpos)] at hlocation
  rw [← h.region_size hrest]
  exact Location.seen_stop hlocation

end TokenStream.Covers

/-- A report that was made with the cursor at index `i` is at `l`, which is where its code wants it:
stray tokens and operators where they are, a target from its first token through its last one, and
what is missing at the first real token from index `i` on, or else at the end. -/
def Report.InPlace (lines : Bool) (s : TokenStream) (i : Nat) (r : Report Anchor) (l : Location) :
    Prop :=
  match r.code with
  | .strayToken | .strayInput => ∃ t, Latest s.tokens i t ∧ l = s.location t ∧ r.args = [t.text]
  | .mixedLogic => ∃ t, Latest s.tokens i t ∧ l = s.location t ∧
      ∃ operator : BinaryOperator, t.kind = operator.kind ∧ operator.precedence = .logical
  | .notAssignable => ∃ target e j k, Rejected s.tokens target ∧ target.outline.extent? = some e ∧
      e.Spans s.tokens j k ∧ k < i ∧ l.seen lines = (s.region j (k + 1)).seen lines
  | .openString | .strangeCharacter | .malformedNumber | .openComment => False
  | code => ∃ d : Demand, d.code = code ∧ d.args = r.args ∧ ¬d.Met s.tokens i ∧
      match reals s.tokens i with
      | t :: _ => l = s.location t
      | [] => l.seen lines = s.endOfSource.seen lines

variable {lines : Bool} {s : TokenStream} {ls : List Lexeme} {i : Nat} {r : Report Anchor}

theorem Latest.mem {tokens : Array Token} {t : Token} (h : Latest tokens i t) : t ∈ tokens := by
  obtain ⟨-, j, -, ht⟩ := h
  exact Array.mem_of_getElem? ht

theorem Report.InPlace.bounds {l : Location} (h : r.InPlace lines s i l)
    (hcovers : s.Covers lines ls) (hrest : s.point.rest = []) : s.Bounds lines l := by
  unfold InPlace at h
  split at h
  · obtain ⟨t, ht, rfl, -⟩ := h
    exact hcovers.bounds_location hrest ht.mem
  · obtain ⟨t, ht, rfl, -⟩ := h
    exact hcovers.bounds_location hrest ht.mem
  · obtain ⟨t, ht, rfl, -⟩ := h
    exact hcovers.bounds_location hrest ht.mem
  · obtain ⟨target, e, j, k, -, -, hspans, -, hl⟩ := h
    have hk : k < s.tokens.size := (Array.getElem?_eq_some_iff.mp hspans.last).1
    exact hcovers.bounds_region hrest (Nat.le_succ_of_le hspans.le) hk hl
  · exact h.elim
  · exact h.elim
  · exact h.elim
  · exact h.elim
  · obtain ⟨d, -, -, -, hl⟩ := h
    split at hl
    next t _ hreals =>
      have ht : t ∈ reals s.tokens i := hreals ▸ List.mem_cons_self
      subst hl
      exact hcovers.bounds_location hrest
        (Array.mem_toList_iff.mp (List.mem_of_mem_drop (List.mem_filter.mp ht).1))
    next => exact hcovers.bounds_endOfSource hrest hl

theorem Report.location_missing (hcovers : s.Covers lines ls) (hrest : s.point.rest = [])
    (d : Demand) :
    match reals s.tokens i with
    | t :: _ => (missing s.tokens d i).location s.timeline.resolve = s.location t
    | [] => ((missing s.tokens d i).location s.timeline.resolve).seen lines =
        s.endOfSource.seen lines := by
  rw [location, missing, nextAnchor]
  cases hnext : s.tokens[nextReal s.tokens i]? with
  | some t =>
    rw [reals_of_next hnext]
    rfl
  | none =>
    rw [reals_of_next_none hnext]
    cases hback : s.tokens.back? with
    | some last => exact hcovers.locationBehind_back hrest hback
    | none =>
      -- Without any tokens the source is empty, and its end is its start.
      have htokens : s.tokens = #[] := Array.back?_eq_none_iff.mp hback
      have hsource := hcovers.covered hrest
      rw [htokens] at hsource
      rw [TokenStream.endOfSource, ← hsource]
      rfl

theorem Reported.inPlace (h : Reported s.tokens i r) (hcovers : s.Covers lines ls)
    (hrest : s.point.rest = []) : r.InPlace lines s i (r.location s.timeline.resolve) := by
  cases h with
  | @stray code t hcode ht =>
    have hstray : ∃ u, Latest s.tokens i u ∧
        (Report.stray code t).location s.timeline.resolve = s.location u ∧
        (Report.stray code t).args = [u.text] := ⟨t, ht, rfl, rfl⟩
    rw [Code.isSkip, Bool.or_eq_true, decide_eq_true_eq, decide_eq_true_eq] at hcode
    rcases hcode with rfl | rfl <;> exact hstray
  | mixed ht hkind hlogical => exact ⟨_, ht, rfl, _, hkind, hlogical⟩
  | @rejected target e j k htarget he hspans hk =>
    refine ⟨target, e, j, k, htarget, he, hspans, hk, ?_⟩
    rw [hcovers.region_eq, ← hcovers.extentLocation_seen hspans, Report.rejection_eq he]
    rfl
  | @missing d hunmet =>
    have hmissing : ∃ d' : Demand, d'.code = d.code ∧ d'.args = d.args ∧ ¬d'.Met s.tokens i ∧
        match reals s.tokens i with
        | t :: _ => (Report.missing s.tokens d i).location s.timeline.resolve = s.location t
        | [] => ((Report.missing s.tokens d i).location s.timeline.resolve).seen lines =
            s.endOfSource.seen lines :=
      ⟨d, rfl, rfl, hunmet, Report.location_missing hcovers hrest d⟩
    cases d <;> exact hmissing

namespace Session

/-- The tokens of a stream that has just been parsed make up its source, and the reports are made
one by one on a course through them, whatever has been edited and parsed before. Each of them is in
its place, as far as the offsets of an edited source are 32-bit numbers, and if its lines are so too,
in lines and columns as well. -/
theorem placed_parse (lines : Bool) (source : Text) (ops : List SessionOp)
    (hfits : ∀ done, done <+: ops → done ≠ [] →
      Text.Fits lines ((ofSource source).run done).stream.source) :
    let s := (ofSource source).run ops
    let result := parse s.stream s.memo
    let stream := result.2.1
    stream.tokens.toList.flatMap Token.text = stream.source ∧
    ∀ front r back, result.1.reports = front ++ r :: back →
      stream.Bounds lines (r.location stream.timeline.resolve) ∧
      ∃ i, Course stream.tokens 0 front i ∧ Course stream.tokens i back stream.tokens.size ∧
        r.InPlace lines stream i (r.location stream.timeline.resolve) := by
  intro s result stream
  have hvalid : s.Valid := (valid_ofSource source).run ops
  have hstart := TokenStream.covers_ofSource lines source
  obtain ⟨ls, hcovers⟩ := covers_run (valid_ofSource source) hstart ops fun done op hdone _ =>
    hfits (done ++ [op]) hdone (List.append_ne_nil_of_right_ne_nil _ (List.cons_ne_nil op []))
  obtain ⟨ms, hms, hrest⟩ := hcovers.readAll
  refine ⟨hms.covered hrest, fun front r back hreports => ?_⟩
  obtain ⟨i, hfront, hr, hback⟩ := hvalid.course.exists_point hreports
  have hplace : r.InPlace lines stream i (r.location stream.timeline.resolve) :=
    hr.inPlace hms hrest
  exact ⟨hplace.bounds hms hrest, i, hfront, hback, hplace⟩

theorem placed_parse_shortened :
    let s := (ofSource "fn f() \x7b 1 = 2; \x7d let a".toList).run [.parse, .edit 21 2 []]
    let result := parse s.stream s.memo
    let stream := result.2.1
    (result.1.reports.map fun r => (r.code, r.location stream.timeline.resolve)) =
      [(.notAssignable, ⟨⟨9, 10⟩, ⟨⟨1, 9⟩, ⟨1, 10⟩⟩⟩), (.missingIdentifier, .point 21 ⟨1, 21⟩),
        (.missingToken, .point 21 ⟨1, 21⟩), (.missingToken, .point 21 ⟨1, 21⟩)] ∧
    stream.tokens.toList.flatMap Token.text = stream.source ∧
    ∀ front r back, result.1.reports = front ++ r :: back →
      stream.Bounds true (r.location stream.timeline.resolve) ∧
      ∃ i, Course stream.tokens 0 front i ∧ Course stream.tokens i back stream.tokens.size ∧
        r.InPlace true stream i (r.location stream.timeline.resolve) := by
  have hfits : ∀ done, done <+: [SessionOp.parse, .edit 21 2 []] → Text.Addressable
      ((ofSource "fn f() \x7b 1 = 2; \x7d let a".toList).run done).stream.source :=
    addressable_of_take (by decide +kernel)
  exact ⟨by decide +kernel, placed_parse true "fn f() \x7b 1 = 2; \x7d let a".toList
    [.parse, .edit 21 2 []] fun done hdone _ => (hfits done hdone).fits true⟩

theorem exists_not_bounds_of_feeds {n : Nat} (hn : n + 1 = maxCoordinate) :
    let s := (ofSource (List.replicate n '\n')).run [.edit 0 0 ['\n'], .edit 0 n ['l', 'e', 't']]
    let result := parse s.stream s.memo
    let stream := result.2.1
    ∃ r ∈ result.1.reports, r.code = .missingIdentifier ∧
      ¬stream.Bounds true (r.location stream.timeline.resolve) := by
  intro s result stream
  obtain ⟨last, hheld⟩ := exists_heldBack_run hn
  have hheld : s.stream.HeldBack last := hheld
  have hvalid : s.Valid := (valid_ofSource _).run _
  have hread : stream = s.stream := TokenStream.readAll_of_showsAll hheld.shows
  have hnumbered := hvalid.follows (TokenStream.follows_readAll hvalid.numbered)
  have hreports := (parse_eq_bare hvalid.numbered (trusted hvalid) hnumbered.memo).2
  rw [show s.stream.readAll = s.stream from hread] at hreports
  obtain ⟨r, hr, hcode, hplace⟩ := hheld.exists_report
  obtain ⟨i, htokens, -, htext, -⟩ := hheld.parts
  have hr : r ∈ result.1.reports := hreports ▸ hr
  refine ⟨r, hr, hcode, fun hbounds => ?_⟩
  obtain ⟨j, k, -, hk, hseen⟩ := hbounds.boundaries
  have hregion : r.location stream.timeline.resolve = stream.region j k := hseen
  rw [hread] at hregion hk
  rw [hplace] at hregion
  have hstop : 4 = Text.size ((s.stream.tokens.toList.take k).flatMap Token.text) :=
    congrArg (fun l => l.span.stop) hregion
  have hline : (s.stream.location last).range.stop =
      Position.origin.advance ((s.stream.tokens.toList.take k).flatMap Token.text) :=
    congrArg (fun l => l.range.stop) hregion
  have hheld := hheld.held
  rw [← Array.length_toList, htokens] at hk
  rw [htokens] at hstop
  rw [hline, htokens] at hheld
  have hk : k = 0 ∨ k = 1 ∨ k = 2 := by
    simp only [List.length_cons, List.length_nil] at hk
    omega
  -- The report is behind both tokens, and behind both of them the second line begins.
  rcases hk with rfl | rfl | rfl
  · cases hstop
  · cases hstop
  · simp only [List.take_succ_cons, List.take_zero, List.flatMap_cons, List.flatMap_nil,
      htext] at hheld
    exact absurd hheld (by decide)

/-- The text of 2³² - 1 line feeds comes between two shorter ones. After that what is missing at the
end is reported where no token ends. -/
theorem exists_not_bounds_feeds :
    let s := (ofSource (List.replicate 4294967294 '\n')).run
      [.edit 0 0 ['\n'], .edit 0 4294967294 ['l', 'e', 't']]
    let result := parse s.stream s.memo
    let stream := result.2.1
    ∃ r ∈ result.1.reports, r.code = .missingIdentifier ∧
      ¬stream.Bounds true (r.location stream.timeline.resolve) :=
  exists_not_bounds_of_feeds rfl

end Session

end Reparse
