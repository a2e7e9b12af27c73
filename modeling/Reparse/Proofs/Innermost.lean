import Reparse.Proofs.Laminarity
import Reparse.Proofs.Tree.Innermost

/-!
# The innermost node around a position

The nodes of a parsed tree lie within their parents and apart from their siblings. So the nodes
around a position are one node and its ancestors, and a search that goes down only through nodes
around the position comes to that node.
-/

namespace Reparse

open Reparse.Parser
open Outline

namespace Location

variable {l m : Location} {p : Position}

theorem Within.contains (h : l.Within m) (hl : l.Filled) (hm : m.Filled)
    (hp : l.range.contains p = true) : m.range.contains p = true := by
  have hwithin := (LineRange.contains_iff hl.range).mp hp
  have hstart := h.startPos
  have hstop := h.stopPos
  rw [LineRange.contains_iff hm.range]
  simp only [Position.le_def, Position.lt_def] at hwithin hstart hstop ⊢
  omega

theorem Before.not_both (h : l.Before m) (hl : l.Filled) (hm : m.Filled) :
    ¬(l.range.contains p = true ∧ m.range.contains p = true) := by
  rintro ⟨hp, hp'⟩
  have hwithin := (LineRange.contains_iff hl.range).mp hp
  have hwithin' := (LineRange.contains_iff hm.range).mp hp'
  have hbefore := h.range
  simp only [Position.le_def, Position.lt_def] at hwithin hwithin' hbefore
  omega

end Location

/-- Whether the range of an annotated node contains a position. -/
def Timeline.encloses (t : Timeline) (position : Position) (i : Info) : Bool :=
  (t.infoLocation? i).any fun l => l.range.contains position

namespace Outline

def Around (s : TokenStream) (position : Position) (o : Outline Info) : Prop :=
  ∃ l, o.location? s = some l ∧ l.range.contains position = true

variable {s : TokenStream} {p : Position} {o : Outline Info}

theorem covered_iff_around : o.Covered (s.timeline.encloses p) ↔ o.Around s p := by
  obtain ⟨form, text?, info?, children⟩ := o
  cases info? <;>
    simp [Covered, Around, location?, extent?, Outline.info?, Timeline.encloses,
      Timeline.infoLocation?, Option.any_eq_true]

theorem Laminar.nested (h : o.Laminar true s) (hbelow : ∀ c ∈ o.children, c.Laminar true s) :
    o.Nested (s.timeline.encloses p) := by
  constructor
  · intro c hc hcovered
    obtain ⟨l, hl, hp⟩ := covered_iff_around.mp hcovered
    obtain ⟨m, hm, hwithin⟩ := h.within c (List.mem_append_left _ hc) l hl
    have hwithin : l.Within m := hwithin
    exact covered_iff_around.mpr
      ⟨m, hm, hwithin.contains ((hbelow c hc).filled hl) (h.filled hm) hp⟩
  · refine (List.pairwise_filterMap.mp h.children).imp_of_mem fun {c d} hc hd hbefore => ?_
    rintro ⟨hcovered, hcovered'⟩
    obtain ⟨l, hl, hp⟩ := covered_iff_around.mp hcovered
    obtain ⟨m, hm, hp'⟩ := covered_iff_around.mp hcovered'
    have hbefore : l.Before m := hbefore l hl m hm
    exact hbefore.not_both ((hbelow c hc).filled hl) ((hbelow d hd).filled hm) ⟨hp, hp'⟩

theorem nested_of_laminar (h : ∀ n ∈ o.nodes, n.Laminar true s) :
    ∀ n ∈ o.nodes, n.Nested (s.timeline.encloses p) := fun n hn =>
  (h n hn).nested fun c hc =>
    h c (nodes_subset hn (nodes_subset_of_mem_children hc c.self_mem_nodes))

theorem not_around_below (h : ∀ n ∈ o.nodes, n.Laminar true s) (hnot : ¬o.Around s p)
    {n : Outline Info} (hn : n ∈ o.nodes) : ¬n.Around s p := by
  intro haround
  obtain ⟨path, hpath⟩ := mem_nodes.mp hn
  exact hnot (covered_iff_around.mp
    (Covered.of_at? (nested_of_laminar h) hpath (covered_iff_around.mpr haround)))

end Outline

namespace Program

variable {s : TokenStream} {p : Position} {program : Program Info}

theorem nodeAt?_of_innermost? (h : ∀ o ∈ program.outline.nodes, o.Laminar true s) {form : Form}
    {info : Info}
    (hanswer : program.outline.innermost? (s.timeline.encloses p) = some (form, info)) :
    ∃ path o sort location, program.outline.IsInnermost (s.timeline.encloses p) path o ∧
      o.form = form ∧ o.info? = some info ∧ o.form.sort? = some sort ∧
      o.location? s = some location ∧ location.range.contains p = true ∧
      program.nodeAt? s.timeline p = some (sort, location) := by
  obtain ⟨path, o, hinnermost, rfl, hinfo⟩ :=
    exists_isInnermost (nested_of_laminar h) hanswer
  obtain ⟨sort, hsort⟩ := Option.isSome_iff_exists.mp hinnermost.sort
  obtain ⟨location, hlocation, hcontains⟩ := covered_iff_around.mp hinnermost.covered
  have hplaced : s.timeline.infoLocation? info = some location := by
    rw [location?, extent?, hinfo] at hlocation
    exact hlocation
  refine ⟨path, o, sort, location, hinnermost, rfl, hinfo, hsort, hlocation, hcontains, ?_⟩
  change (program.outline.innermost? (s.timeline.encloses p)).bind _ = _
  rw [hanswer, Option.bind_some]
  simp only [hsort, hplaced]
  rfl

theorem nodeAt?_eq_none (h : ∀ o ∈ program.outline.nodes, o.Laminar true s) :
    program.nodeAt? s.timeline p = none ↔
      ∀ o ∈ program.outline.nodes, o.form.sort?.isSome → ¬o.Around s p := by
  have hall := innermost?_eq_none_iff (nested_of_laminar (p := p) h)
  simp only [covered_iff_around] at hall
  rw [← hall]
  cases hanswer : program.outline.innermost? (s.timeline.encloses p) with
  | none =>
    refine iff_of_true ?_ rfl
    change (program.outline.innermost? (s.timeline.encloses p)).bind _ = _
    rw [hanswer, Option.bind_none]
  | some answer =>
    obtain ⟨_, _, _, _, -, -, -, -, -, -, hfound⟩ := nodeAt?_of_innermost? h hanswer
    rw [hfound]
    exact iff_of_false (Option.some_ne_none _) (Option.some_ne_none _)

theorem exists_of_nodeAt? (h : ∀ o ∈ program.outline.nodes, o.Laminar true s) {sort : NodeSort}
    {location : Location} (hfound : program.nodeAt? s.timeline p = some (sort, location)) :
    ∃ path o info, program.outline.innermost? (s.timeline.encloses p) = some (o.form, info) ∧
      program.outline.at? path = some o ∧ o.info? = some info ∧ o.form.sort? = some sort ∧
      o.location? s = some location ∧ location.range.contains p = true ∧
      ∀ path' o', program.outline.at? path' = some o' → o'.form.sort?.isSome → o'.Around s p →
        path' <+: path := by
  cases hanswer : program.outline.innermost? (s.timeline.encloses p) with
  | none =>
    have hnone := (nodeAt?_eq_none h).mpr fun o ho hsort haround =>
      (innermost?_eq_none_iff (nested_of_laminar h)).mp hanswer o ho hsort
        (covered_iff_around.mpr haround)
    exact absurd (hfound.symm.trans hnone) (Option.some_ne_none _)
  | some answer =>
    obtain ⟨path, o, sort', location', hinnermost, hform, hinfo, hsort, hlocation, hcontains,
      hfound'⟩ := nodeAt?_of_innermost? h hanswer
    obtain ⟨rfl, rfl⟩ := Prod.mk.inj (Option.some.inj (hfound.symm.trans hfound'))
    obtain ⟨form, info⟩ := answer
    obtain rfl : o.form = form := hform
    exact ⟨path, o, info, rfl, hinnermost.at?, hinfo, hsort, hlocation, hcontains,
      fun path' o' ho' hsort' haround =>
        hinnermost.above path' o' ho' hsort' (covered_iff_around.mpr haround)⟩

end Program

namespace Session

theorem covers_run_of_edited (source : Text) (ops : List SessionOp)
    (hfits : ∀ done, done <+: ops → done ≠ [] →
      Text.Addressable ((ofSource source).run done).stream.source) :
    ∃ ls, ((ofSource source).run ops).stream.Covers true ls :=
  covers_run (valid_ofSource source) (TokenStream.covers_ofSource true source) ops
    fun done op hdone _ => (hfits (done ++ [op]) hdone (by simp)).fits true

/-- A search for the node at a position, in a tree parsed from any source, comes back with nothing
just if no node is around the position. Otherwise it comes back with a node around the position of
which every other such node is an ancestor. Below a node that is not around the position none is,
so leaving it out hides nothing. Only a source that has been edited since must have coordinates. -/
theorem nodeAt_parse (source : Text) (ops : List SessionOp) (position : Position)
    (hfits : ∀ done, done <+: ops → done ≠ [] →
      Text.Addressable ((ofSource source).run done).stream.source) :
    let s := (ofSource source).run ops
    let result := parse s.stream s.memo
    let program := result.1.program
    let stream := result.2.1
    (program.nodeAt? stream.timeline position = none ↔
      ∀ o ∈ program.outline.nodes, o.form.sort?.isSome → ¬o.Around stream position) ∧
    (∀ sort location, program.nodeAt? stream.timeline position = some (sort, location) →
      ∃ path o info,
        program.outline.innermost? (stream.timeline.encloses position) = some (o.form, info) ∧
        program.outline.at? path = some o ∧ o.info? = some info ∧ o.form.sort? = some sort ∧
        o.location? stream = some location ∧ location.range.contains position = true ∧
        ∀ path' o', program.outline.at? path' = some o' → o'.form.sort?.isSome →
          o'.Around stream position → path' <+: path) ∧
    ∀ o ∈ program.outline.nodes, ¬o.Around stream position → ∀ n ∈ o.nodes,
      ¬n.Around stream position := by
  intro s result program stream
  have hvalid : s.Valid := (valid_ofSource source).run ops
  obtain ⟨ls, hcovers⟩ := covers_run_of_edited source ops hfits
  obtain ⟨ms, hms, -⟩ := hcovers.readAll
  obtain ⟨f, -, hassembled⟩ := hvalid.assembled
  have hlaminar : ∀ o ∈ program.outline.nodes, o.Laminar true stream :=
    hassembled.laminar hms (TokenStream.follows_readAll hvalid.numbered).numbered
  refine ⟨Program.nodeAt?_eq_none hlaminar, fun sort location hfound =>
    Program.exists_of_nodeAt? hlaminar hfound, fun o ho hnot n hn => ?_⟩
  exact not_around_below (fun m hm => hlaminar m (nodes_subset ho hm)) hnot hn

theorem nodeAt_parse_nested_block :
    let s := (ofSource "fn f() \x7b \x7b a; \x7d \x7d".toList).run
      [.readNext, .parse, .mutate 1 1 ['\n'], .parse]
    let result := parse s.stream s.memo
    let program := result.1.program
    let stream := result.2.1
    (program.nodeAt? stream.timeline ⟨2, 6⟩ = none ↔
      ∀ o ∈ program.outline.nodes, o.form.sort?.isSome → ¬o.Around stream ⟨2, 6⟩) ∧
    (∀ sort location, program.nodeAt? stream.timeline ⟨2, 6⟩ = some (sort, location) →
      ∃ path o info,
        program.outline.innermost? (stream.timeline.encloses ⟨2, 6⟩) = some (o.form, info) ∧
        program.outline.at? path = some o ∧ o.info? = some info ∧ o.form.sort? = some sort ∧
        o.location? stream = some location ∧ location.range.contains ⟨2, 6⟩ = true ∧
        ∀ path' o', program.outline.at? path' = some o' → o'.form.sort?.isSome →
          o'.Around stream ⟨2, 6⟩ → path' <+: path) ∧
    ∀ o ∈ program.outline.nodes, ¬o.Around stream ⟨2, 6⟩ → ∀ n ∈ o.nodes,
      ¬n.Around stream ⟨2, 6⟩ := by
  refine nodeAt_parse "fn f() \x7b \x7b a; \x7d \x7d".toList
    [.readNext, .parse, .mutate 1 1 ['\n'], .parse] ⟨2, 6⟩ fun done hdone _ => ?_
  have hshort : ∀ n < 5, Text.size ((ofSource "fn f() \x7b \x7b a; \x7d \x7d".toList).run
      ([SessionOp.readNext, .parse, .mutate 1 1 ['\n'], .parse].take n)).stream.source <
        maxCoordinate := by
    decide +kernel
  have hlt := hshort done.length (Nat.lt_succ_of_le hdone.length_le)
  rw [← List.prefix_iff_eq_take.mp hdone] at hlt
  exact (Text.addressable_iff _).mpr ⟨Nat.le_of_lt hlt, Text.ne_feeds_of_size_lt hlt⟩

end Session

end Reparse
