import Reparse.Proofs.Assembly
import Reparse.Proofs.TokenStream.Tiling

/-!
# Trees are laminar

Wherever the tokens of a stream lie, the nodes of its tree lie within their parents and one behind
the other, in bytes and in lines and columns alike. A node lies nowhere only if it stands in for
something missing, or if it is a program without any tokens but trivia.
-/

namespace Reparse

open Reparse.Parser
open Lexeme (joined)

namespace Position

theorem earlier_of_le {p q : Position} (h : p ≤ q) : p.earlier q = p := by
  refine if_neg fun hlt => ?_
  simp only [le_def, lt_def] at h hlt
  omega

theorem later_of_le {p q : Position} (h : p ≤ q) : p.later q = q := by
  unfold later
  split
  · rfl
  next hnot =>
    obtain ⟨line, column⟩ := p
    obtain ⟨line', column'⟩ := q
    simp only [le_def, lt_def] at h hnot
    rw [Position.mk.injEq]
    omega

end Position

namespace Location

structure Filled (l : Location) : Prop where
  span : l.span.start < l.span.stop
  range : l.range.start < l.range.stop

structure Within (l m : Location) : Prop where
  start : m.span.start ≤ l.span.start
  stop : l.span.stop ≤ m.span.stop
  startPos : m.range.start ≤ l.range.start
  stopPos : l.range.stop ≤ m.range.stop

structure Before (l m : Location) : Prop where
  span : l.span.stop ≤ m.span.start
  range : l.range.stop ≤ m.range.start

variable {l m : Location}

theorem Within.seen (h : l.Within m) (lines : Bool) : (l.seen lines).Within (m.seen lines) := by
  cases lines with
  | true => exact h
  | false => exact ⟨h.start, h.stop, Position.le_refl _, Position.le_refl _⟩

theorem Before.seen (h : l.Before m) (lines : Bool) : (l.seen lines).Before (m.seen lines) := by
  cases lines with
  | true => exact h
  | false => exact ⟨h.span, Position.le_refl _⟩

end Location

namespace Lexeme

variable {ls : List Lexeme} {i j k l : Nat}

def region (ls : List Lexeme) (i j : Nat) : Location where
  span := ⟨Text.size (joined (ls.take i)), Text.size (joined (ls.take j))⟩
  range := ⟨Position.origin.advance (joined (ls.take i)),
    Position.origin.advance (joined (ls.take j))⟩

theorem advance_take_le (ls : List Lexeme) (h : i ≤ j) :
    Position.origin.advance (joined (ls.take i)) ≤
      Position.origin.advance (joined (ls.take j)) := by
  obtain ⟨m, hm⟩ := List.take_prefix_take_left (l := ls) h
  rw [← hm, joined_append, Position.advance_append]
  exact Position.le_advance _ _

theorem region_filled (h : i < j) (hi : i < ls.length) : (region ls i j).Filled := by
  refine ⟨size_joined_take_lt ls h hi, ?_⟩
  have hstep : ls.take (i + 1) = ls.take i ++ [ls[i]] := List.take_succ_eq_append_getElem hi
  have hlt : Position.origin.advance (joined (ls.take i)) <
      Position.origin.advance (joined (ls.take (i + 1))) := by
    rw [hstep, joined_append, Position.advance_append, joined_cons, joined_nil, List.append_nil]
    exact Position.lt_advance _ (List.cons_ne_nil _ _)
  have hle := advance_take_le ls (i := i + 1) h
  simp only [region, Position.le_def, Position.lt_def] at hlt hle ⊢
  omega

theorem region_within (hik : i ≤ k) (hlj : l ≤ j) : (region ls k l).Within (region ls i j) :=
  ⟨size_joined_take_le ls hik, size_joined_take_le ls hlj, advance_take_le ls hik,
    advance_take_le ls hlj⟩

theorem region_before (h : j ≤ k) : (region ls i j).Before (region ls k l) :=
  ⟨size_joined_take_le ls h, advance_take_le ls h⟩

theorem region_merge (hij : i ≤ j) :
    (region ls i (i + 1)).merge (region ls j (j + 1)) = region ls i (j + 1) := by
  have hstart := size_joined_take_le ls hij
  have hstop := size_joined_take_le ls (Nat.succ_le_succ hij)
  rw [Location.merge, Span.merge, LineRange.merge]
  simp only [region, Nat.min_eq_left hstart, Nat.max_eq_right hstop,
    Position.earlier_of_le (advance_take_le ls hij),
    Position.later_of_le (advance_take_le ls (Nat.succ_le_succ hij))]

end Lexeme

open Lexeme (region)

namespace TokenStream.Covers

variable {lines : Bool} {s : TokenStream} {ls : List Lexeme} {t : Token} {e : Extent} {i j : Nat}

theorem location_seen (h : s.Covers lines ls) (ht : s.tokens[i]? = some t) :
    (s.location t).seen lines = (region ls i (i + 1)).seen lines := by
  obtain ⟨as, l, bs, rfl, rfl, hsight⟩ := h.split ht
  have hbefore : (as ++ l :: bs).take as.length = as := List.take_left ..
  have hthrough : (as ++ l :: bs).take (as.length + 1) = as ++ [l] := by
    rw [List.append_cons]
    exact List.take_left' (by rw [List.length_append]; rfl)
  have hlocation := location_of_sight hsight
  rw [location, region, hbefore, hthrough, Lexeme.joined_append, Lexeme.joined_cons,
    Lexeme.joined_nil, List.append_nil, Text.size_append, Position.advance_append]
  exact hlocation

theorem extentLocation_seen (h : s.Covers lines ls) (he : e.Spans s.tokens i j) :
    (s.timeline.extentLocation e).seen lines = (region ls i (j + 1)).seen lines := by
  have hfirst := h.location_seen he.first
  have hlast := h.location_seen he.last
  rw [← Lexeme.region_merge he.le]
  exact Location.seen_merge hfirst hlast

theorem region_filled (h : s.Covers lines ls) (he : e.Spans s.tokens i j) :
    (region ls i (j + 1)).Filled := by
  have hlt := (Array.getElem?_eq_some_iff.mp he.first).1
  have hlength := h.length
  rw [Array.length_toList] at hlength
  exact Lexeme.region_filled (Nat.lt_succ_of_le he.le) (hlength ▸ hlt)

theorem location_eq (h : s.Covers true ls) (ht : s.tokens[i]? = some t) :
    s.location t = region ls i (i + 1) := h.location_seen ht

end TokenStream.Covers

theorem Extent.Spans.unique {tokens : Array Token} (hnodup : (tokens.toList.map Token.id).Nodup)
    {e : Extent} {i j k l : Nat} (h : e.Spans tokens i j) (h' : e.Spans tokens k l) :
    i = k ∧ j = l := by
  obtain ⟨-, hi, hj, -, -⟩ := h
  obtain ⟨-, hk, hl, -, -⟩ := h'
  rw [← Array.getElem?_toList] at hi hj hk hl
  exact ⟨index_eq hnodup hi hk, index_eq hnodup hj hl⟩

namespace Outline

/-- Where a node lies, if it lies anywhere. -/
def location? (s : TokenStream) (o : Outline Info) : Option Location :=
  o.extent?.map s.timeline.extentLocation

variable {lines : Bool} {tokens : Array Token} {s : TokenStream} {ls : List Lexeme} {i j : Nat}
  {os : List (Outline Info)}

theorem location?_eq (hcovers : s.Covers lines ls) {o : Outline Info} {e : Extent}
    (he : o.extent? = some e) (hspans : e.Spans s.tokens i j) :
    ∃ l, o.location? s = some l ∧ l.seen lines = (region ls i (j + 1)).seen lines := by
  refine ⟨s.timeline.extentLocation e, ?_, hcovers.extentLocation_seen hspans⟩
  rw [location?, he]
  rfl

theorem InRow.visited (hnodup : (tokens.toList.map Token.id).Nodup) (h : InRow tokens i j os)
    (hlaid : ∀ o ∈ os, o.Laid tokens) :
    InRow tokens i j (os.flatMap fun c => if c.form.sort?.isNone then c.children else [c]) := by
  induction os generalizing i with
  | nil => exact h
  | cons o os ih =>
    have hlater : ∀ c ∈ os, c.Laid tokens := fun c hc => hlaid c (List.mem_cons_of_mem _ hc)
    rw [List.flatMap_cons]
    rcases (hlaid o List.mem_cons_self).cases with ⟨ho, -, hnone⟩ | ⟨e, k, l, ho, hspans, hrow⟩
    · have hrest := ih ((inRow_cons_of_none ho os).mp h) hlater
      split
      · rwa [hnone, List.nil_append]
      · exact (inRow_cons_of_none ho _).mpr hrest
    · obtain ⟨k', l', hik, hspans', hafter⟩ := (inRow_cons_of_some ho os).mp h
      -- The row and the node itself tell the same place, since no token comes twice.
      obtain ⟨rfl, rfl⟩ := hspans.unique hnodup hspans'
      have hrest := ih hafter hlater
      split
      · exact (hrow.room hik).append hrest
      · exact (inRow_cons_of_some ho _).mpr ⟨k, l, hik, hspans, hrest⟩

theorem InRow.locations (hcovers : s.Covers lines ls) (h : InRow s.tokens i j os) :
    (∀ m ∈ os.filterMap (location? s), ∃ k l, i ≤ k ∧ l ≤ j ∧
        m.seen lines = (region ls k l).seen lines) ∧
      (os.filterMap (location? s)).Pairwise fun l m => (l.seen lines).Before (m.seen lines) := by
  induction os generalizing i with
  | nil => exact ⟨fun _ hm => absurd hm List.not_mem_nil, .nil⟩
  | cons o os ih =>
    cases ho : o.extent? with
    | none =>
      have hskip : o.location? s = none := by rw [location?, ho]; rfl
      rw [List.filterMap_cons_none hskip]
      exact ih ((inRow_cons_of_none ho os).mp h)
    | some e =>
      obtain ⟨k, l, hik, hspans, hrest⟩ := (inRow_cons_of_some ho os).mp h
      obtain ⟨hwithin, hpairwise⟩ := ih hrest
      obtain ⟨place, hplace, hseen⟩ := location?_eq hcovers ho hspans
      rw [List.filterMap_cons_some hplace]
      refine ⟨List.forall_mem_cons.mpr ⟨⟨k, l + 1, hik, hrest.le, hseen⟩, fun m hm => ?_⟩,
        List.pairwise_cons.mpr ⟨fun m hm => ?_, hpairwise⟩⟩
      · obtain ⟨k', l', hle, hle', hm'⟩ := hwithin m hm
        have hkl := hspans.le
        exact ⟨k', l', by omega, hle', hm'⟩
      · obtain ⟨k', l', hle, -, hm'⟩ := hwithin m hm
        rw [hseen, hm']
        exact (Lexeme.region_before hle).seen lines

/-- How a node lies on the tokens of a stream, and its children within it. Fields, which a visitor
looks through, count as children of their own as well. Lines and columns count only if `lines` is
set. -/
structure Laminar (lines : Bool) (s : TokenStream) (o : Outline Info) : Prop where
  placeholder : o.extent? = none ↔
    o.isStandIn = true ∨ o.form = .program ∧ ∀ t ∈ s.tokens, t.isTrivia = true
  spans : ∀ e, o.extent? = some e → ∃ i j, e.Spans s.tokens i j
  span : ∀ l, o.location? s = some l → l.span.start < l.span.stop
  range : lines = true → ∀ l, o.location? s = some l → l.range.start < l.range.stop
  within : ∀ c ∈ o.children ++ o.visited, ∀ l, c.location? s = some l →
    ∃ m, o.location? s = some m ∧ (l.seen lines).Within (m.seen lines)
  children : (o.children.filterMap (location? s)).Pairwise fun l m =>
    (l.seen lines).Before (m.seen lines)
  visited : (o.visited.filterMap (location? s)).Pairwise fun l m =>
    (l.seen lines).Before (m.seen lines)

theorem Laminar.filled {o : Outline Info} (h : o.Laminar true s) {l : Location}
    (hl : o.location? s = some l) : l.Filled := ⟨h.span l hl, h.range rfl l hl⟩

theorem Laminar.of_spans {o : Outline Info} {e : Extent} (hcovers : s.Covers lines ls)
    (hnodup : (s.tokens.toList.map Token.id).Nodup) (he : o.extent? = some e)
    (hspans : e.Spans s.tokens i j) (hrow : InRow s.tokens i (j + 1) o.children)
    (hlaid : ∀ c ∈ o.children, c.Laid s.tokens) (hpresent : o.isStandIn = false)
    (hprogram : o.form = .program → ∃ t ∈ s.tokens, t.isTrivia = false) : o.Laminar lines s := by
  obtain ⟨place, hplace, hseen⟩ := location?_eq hcovers he hspans
  have hfilled := hcovers.region_filled hspans
  have hvisited : InRow s.tokens i (j + 1) o.visited := hrow.visited hnodup hlaid
  obtain ⟨hchildren, hbefore⟩ := hrow.locations hcovers
  obtain ⟨hvisits, hbefore'⟩ := hvisited.locations hcovers
  exact {
    placeholder := by
      constructor
      · intro hnone
        exact absurd (he.symm.trans hnone) (Option.some_ne_none e)
      · rintro (hstandIn | ⟨hform, hall⟩)
        · exact absurd (hpresent.symm.trans hstandIn) Bool.false_ne_true
        · obtain ⟨t, ht, hreal⟩ := hprogram hform
          exact absurd (hreal.symm.trans (hall t ht)) Bool.false_ne_true
    spans := by
      intro d hd
      obtain rfl : e = d := Option.some.inj (he.symm.trans hd)
      exact ⟨i, j, hspans⟩
    span := by
      intro l hl
      obtain rfl : place = l := Option.some.inj (hplace.symm.trans hl)
      rw [Location.span_of_seen hseen]
      exact hfilled.span
    range := by
      intro hlines l hl
      obtain rfl : place = l := Option.some.inj (hplace.symm.trans hl)
      rw [Location.eq_of_seen hseen hlines]
      exact hfilled.range
    within := by
      intro c hc l hl
      have hlocated : ∃ k k', i ≤ k ∧ k' ≤ j + 1 ∧
          l.seen lines = (region ls k k').seen lines := by
        rcases List.mem_append.mp hc with hc | hc
        · exact hchildren l (List.mem_filterMap.mpr ⟨c, hc, hl⟩)
        · exact hvisits l (List.mem_filterMap.mpr ⟨c, hc, hl⟩)
      obtain ⟨k, k', hle, hle', hl'⟩ := hlocated
      refine ⟨place, hplace, ?_⟩
      rw [hseen, hl']
      exact (Lexeme.region_within hle hle').seen lines
    children := hbefore
    visited := hbefore' }

theorem Laminar.of_none {o : Outline Info} (he : o.extent? = none) (hchildren : o.children = [])
    (hcase : o.isStandIn = true ∨ o.form = .program ∧ ∀ t ∈ s.tokens, t.isTrivia = true) :
    o.Laminar lines s := by
  have hvisited : o.visited = [] := by rw [Outline.visited, hchildren]; rfl
  have hlocation : o.location? s = none := by rw [location?, he]; rfl
  exact {
    placeholder := ⟨fun _ => hcase, fun _ => he⟩
    spans := fun e he' => absurd (he'.symm.trans he) (Option.some_ne_none e)
    span := fun l hl => absurd (hl.symm.trans hlocation) (Option.some_ne_none l)
    range := fun _ l hl => absurd (hl.symm.trans hlocation) (Option.some_ne_none l)
    within := by
      intro c hc
      rw [hchildren, hvisited] at hc
      cases hc
    children := hchildren ▸ .nil
    visited := hvisited ▸ .nil }

theorem Laid.present {o : Outline Info} (h : o.Laid tokens) {e : Extent} (he : o.extent? = some e)
    (htext : ∀ t ∈ tokens, t.text ≠ []) : o.isStandIn = false := by
  cases hinfo : o.info? with
  | none =>
    rw [extent?, hinfo] at he
    cases he
  | some info =>
    obtain ⟨hexpression, htype, e, i, j, -, hspans, -, hname⟩ := h.lies info hinfo
    have hfirst := htext e.first (Array.mem_of_getElem? hspans.first)
    have hnamed : o.form = .identifier → o.text? ≠ some [] := fun hform htext? =>
      hfirst (Option.some.inj ((hname hform).symm.trans htext?))
    simpa [isStandIn, hinfo, hexpression, htype] using hnamed

end Outline

theorem reals_zero_eq_nil {tokens : Array Token} :
    reals tokens 0 = [] ↔ ∀ t ∈ tokens, t.isTrivia = true := by
  simp [reals, List.filter_eq_nil_iff]

theorem Assembled.laminar {lines : Bool} {s : TokenStream} {ls : List Lexeme} {p : Program Info}
    {f : Findings} (h : Assembled s.tokens p f) (hcovers : s.Covers lines ls)
    (hnumbered : s.Numbered) : ∀ o ∈ p.outline.nodes, o.Laminar lines s := by
  intro o ho
  have hall : ∀ o ∈ Outline.listNodes (p.definitions.map Definition.outline),
      ∀ c ∈ o.children, c.Laid s.tokens := fun o ho c hc =>
    h.laid c (Outline.listNodes_children_subset_list _ ho (Outline.subset_listNodes _ hc))
  rw [Outline.nodes_eq] at ho
  rcases List.mem_cons.mp ho with rfl | ho
  · by_cases hreals : reals s.tokens 0 = []
    · obtain ⟨hnone, hdefinitions⟩ := h.empty hreals
      refine .of_none hnone ?_ (.inr ⟨rfl, reals_zero_eq_nil.mp hreals⟩)
      rw [Program.outline, hdefinitions]
      rfl
    · obtain ⟨e, i, j, he, hspans, hrow⟩ := h.lies hreals
      refine .of_spans hcovers hnumbered.nodup he hspans hrow (fun c hc => ?_) rfl fun _ => ?_
      · exact h.laid c (Outline.subset_listNodes _ hc)
      · exact ⟨e.first, Array.mem_of_getElem? hspans.first, hspans.first_real⟩
  · have hlaid := h.laid o ho
    rcases hlaid.cases with ⟨hnone, hstandIn, hchildren⟩ | ⟨e, i, j, he, hspans, hrow⟩
    · exact .of_none hnone hchildren (.inl hstandIn)
    · refine .of_spans hcovers hnumbered.nodup he hspans hrow (hall o ho)
        (hlaid.present he (hcovers.tiled hnumbered).nonempty) fun _ => ?_
      exact ⟨e.first, Array.mem_of_getElem? hspans.first, hspans.first_real⟩

/-- Every node of a parsed tree lies on tokens of the stream if it stands in for nothing, it lies
within its parent, and behind its elder siblings, in bytes as well as in lines and columns. Only a
text that the source was changed to must have coordinates, or at least offsets for what is said of
bytes. -/
theorem Session.laminar_parse (lines : Bool) (source : Text) (ops : List SessionOp)
    (hfits : ∀ done op, done ++ [op] <+: ops → op.isChange = true →
      Text.Fits lines ((ofSource source).run (done ++ [op])).stream.source) :
    let s := (ofSource source).run ops
    let result := parse s.stream s.memo
    ∀ o ∈ result.1.program.outline.nodes, o.Laminar lines result.2.1 := by
  intro s result
  have hvalid : s.Valid := (valid_ofSource source).run ops
  have hstart := TokenStream.covers_ofSource lines source
  obtain ⟨ls, hcovers⟩ := covers_run (valid_ofSource source) hstart ops hfits
  obtain ⟨ms, hms, -⟩ := hcovers.readAll
  obtain ⟨f, -, h⟩ := hvalid.assembled
  exact h.laminar hms (TokenStream.follows_readAll hvalid.numbered).numbered

theorem Session.laminar_parse_broken :
    let s := (ofSource "fn () \x7b let a = ; a b = 1 + \x7b x: 1 \x7d = 2; ) if".toList).run
      [.readNext, .parse, .mutate 1 1 [], .parse]
    let result := parse s.stream s.memo
    ∀ o ∈ result.1.program.outline.nodes, o.Laminar true result.2.1 := by
  exact laminar_parse true "fn () \x7b let a = ; a b = 1 + \x7b x: 1 \x7d = 2; ) if".toList
    [.readNext, .parse, .mutate 1 1 [], .parse] fun done op hdone _ =>
      (addressable_of_take (by decide +kernel) (done ++ [op]) hdone).fits true

end Reparse
