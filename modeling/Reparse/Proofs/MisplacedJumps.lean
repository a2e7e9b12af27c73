import Mathlib.Data.List.Pairwise
import Reparse.Proofs.Grammar.Remarks.Definitions
import Reparse.Proofs.Innermost
import Reparse.Proofs.SkippedRuns

/-!
# Misplaced jumps

A jump is reported just if no loop of the tree is around it, however deep in branches and blocks it
is, and whatever loops there were in earlier parses of the text. A return is never reported.
-/

namespace Reparse

variable {tokens : Array Token} {reports : List (Report Anchor)} {w : Remarks} {i j : Nat}
  {t : Token}

theorem Statement.isJump_of_word? {s : Statement Info} {k : Kind} (h : s.word? = some k) :
    k.isJump = true ∧ k ≠ .returnWord := by
  cases s with
  | «break» | «continue» =>
    rw [← Option.some.inj h]
    decide
  | _ => cases h

theorem Findings.Told.eq_stray {f : Findings} (h : f.Told tokens) {r : Report Anchor}
    (hr : r ∈ f.reports) (hcode : r.code = .strayToken) :
    ∃ t ∈ f.strays, r = .stray .strayToken t := by
  have hmem : r ∈ f.strays.map (.stray .strayToken) := by
    rw [← h.strays]
    exact List.mem_filter.mpr ⟨hr, decide_eq_true hcode⟩
  obtain ⟨t, ht, heq⟩ := List.mem_map.mp hmem
  exact ⟨t, ht, heq.symm⟩

namespace Noted

theorem eq_of_keyword? (h : Noted tokens i j reports w) (hnodup : tokens.toList.Nodup)
    {q q' : Statement Info × Bool} (hq : q ∈ w.jumps) (hq' : q' ∈ w.jumps)
    (ht : q.1.keyword? = some t) (ht' : q'.1.keyword? = some t) : q = q' := by
  have hwords := List.pairwise_filterMap.mp
    (hnodup.sublist (h.keywords.trans (stretch_sublist ..)))
  by_contra hne
  have hsymm : Std.Symm fun q q' : Statement Info × Bool =>
      ∀ t, q.1.keyword? = some t → ∀ t', q'.1.keyword? = some t' → t ≠ t' :=
    ⟨fun _ _ hne t ht t' ht' heq => hne t' ht' t ht heq.symm⟩
  exact hwords.forall hq hq' hne t ht t ht' rfl

theorem stray_mem_iff (h : Noted tokens i j reports w) (hjump : t.kind.isJump = true) :
    Report.stray .strayToken t ∈ reports ↔
      ∃ q ∈ w.jumps, q.2 = false ∧ q.1.keyword? = some t := by
  have hmisplaced : Report.stray .strayToken t ∈ reports ↔
      Report.stray .strayToken t ∈ reports.filter Report.isMisplaced := by
    rw [List.mem_filter]
    exact ⟨fun hmem => ⟨hmem, hjump⟩, fun hmem => hmem.1⟩
  rw [hmisplaced, h.misplaced, List.mem_map]
  constructor
  · rintro ⟨u, hu, heq⟩
    obtain rfl : u = t := Anchor.token.inj (Option.some.inj (congrArg Report.anchor heq))
    obtain ⟨q, hq, hword⟩ := List.mem_filterMap.mp hu
    obtain ⟨hq, houtside⟩ := List.mem_filter.mp hq
    exact ⟨q, hq, by simpa using houtside, hword⟩
  · rintro ⟨q, hq, houtside, hword⟩
    refine ⟨t, List.mem_filterMap.mpr ⟨q, List.mem_filter.mpr ⟨hq, ?_⟩, hword⟩, rfl⟩
    rw [houtside]
    rfl

theorem filter_stray {f : Findings} (h : Noted tokens i j f.reports w) (htold : f.Told tokens)
    (hnodup : tokens.toList.Nodup) (hstrays : f.strays.Nodup) {q : Statement Info × Bool}
    (hq : q ∈ w.jumps) (hword : q.1.word? = some t.kind) (ht : q.1.keyword? = some t) :
    (f.reports.filter fun r => r.anchor = some (.token t) && r.code = .strayToken) =
      if q.2 then [] else [.stray .strayToken t] := by
  have hmem := h.stray_mem_iff (Statement.isJump_of_word? hword).1
  cases hlooped : q.2 with
  | false => exact htold.filter_stray hstrays (hmem.mpr ⟨q, hq, hlooped, ht⟩)
  | true =>
    refine List.filter_eq_nil_iff.mpr fun r hr hstray => ?_
    obtain ⟨hanchor, hcode⟩ := Bool.and_eq_true_iff.mp hstray
    obtain ⟨u, -, rfl⟩ := htold.eq_stray hr (of_decide_eq_true hcode)
    obtain rfl : u = t := Anchor.token.inj (Option.some.inj (of_decide_eq_true hanchor))
    obtain ⟨q', hq', houtside, ht'⟩ := hmem.mp hr
    obtain rfl : q = q' := h.eq_of_keyword? hnodup hq hq' ht ht'
    exact absurd (houtside.symm.trans hlooped) Bool.false_ne_true

theorem stray_notMem_of_return (h : Noted tokens i j reports w) (ht : t.kind = .returnWord) :
    Report.stray .strayToken t ∉ reports := by
  intro hr
  have hjump : t.kind.isJump = true := by
    rw [ht]
    rfl
  obtain ⟨q, hq, -, hword⟩ := (h.stray_mem_iff hjump).mp hr
  obtain ⟨u, hu, hkind⟩ := h.led q hq
  obtain rfl : t = u := Option.some.inj (hword.symm.trans hu)
  exact (Statement.isJump_of_word? hkind).2 ht

end Noted

namespace TokenStream.Covers

variable {s : TokenStream} {ls : List Lexeme} {u : Token}

theorem location_ne_of_lt (h : s.Covers true ls) (ht : s.tokens[i]? = some t)
    (hu : s.tokens[j]? = some u) (hlt : i < j) : s.location t ≠ s.location u := by
  intro heq
  obtain ⟨as, l, bs, rfl, rfl, -⟩ := h.split ht
  have hinside : as.length < (as ++ l :: bs).length := by simp
  have hfilled := (Lexeme.region_filled (Nat.lt_succ_self as.length) hinside).span
  have hbefore : (Lexeme.region (as ++ l :: bs) as.length (as.length + 1)).span.stop ≤
      (Lexeme.region (as ++ l :: bs) j (j + 1)).span.start :=
    (Lexeme.region_before (Nat.succ_le_of_lt hlt)).span
  rw [← h.location_eq hu, ← heq, h.location_eq ht] at hbefore
  exact absurd hbefore (Nat.not_le.mpr hfilled)

theorem location_inj (h : s.Covers true ls) (ht : t ∈ s.tokens) (hu : u ∈ s.tokens)
    (heq : s.location t = s.location u) : t = u := by
  obtain ⟨i, hi⟩ := Array.mem_iff_getElem?.mp ht
  obtain ⟨j, hj⟩ := Array.mem_iff_getElem?.mp hu
  rcases Nat.lt_trichotomy i j with hlt | rfl | hlt
  · exact absurd heq (h.location_ne_of_lt hi hj hlt)
  · exact Option.some.inj (hi.symm.trans hj)
  · exact absurd heq.symm (h.location_ne_of_lt hj hi hlt)

end TokenStream.Covers

namespace Session

/-- A jump of a parsed tree has one report at its word if no loop is around it, and none otherwise.
A return has none. Reports are told by the tokens they are about, and so by where they are, as far
as an edited source has coordinates. -/
theorem misplaced_parse (source : Text) (ops : List SessionOp) :
    let s := (ofSource source).run ops
    let result := parse s.stream s.memo
    let stream := result.2.1
    let reports := result.1.reports
    (∀ q ∈ result.1.program.statements, ∀ word ∈ q.1.word?,
      ∃ t ∈ stream.tokens, q.1.keyword? = some t ∧ t.kind = word ∧
        (reports.filter fun r => r.anchor = some (.token t) && r.code = .strayToken) =
          if q.2 then [] else [.stray .strayToken t]) ∧
    (∀ t ∈ stream.tokens, t.kind = .returnWord → ∀ r ∈ reports, r.code = .strayToken →
      r.anchor ≠ some (.token t)) ∧
    ((∀ done, done <+: ops → done ≠ [] →
        Text.Addressable ((ofSource source).run done).stream.source) →
      ∀ r ∈ reports, r.code = .strayToken → ∀ t ∈ stream.tokens,
        (r.location stream.timeline.resolve = stream.location t ↔ r.anchor = some (.token t))) := by
  intro s result stream reports
  have hvalid : s.Valid := (valid_ofSource source).run ops
  have hnodup : stream.tokens.toList.Nodup :=
    (TokenStream.follows_readAll hvalid.numbered).numbered.nodup_tokens
  obtain ⟨f, hreports, hassembled⟩ := hvalid.assembled
  obtain ⟨j, hnoted⟩ := hvalid.noted
  rw [hreports] at hnoted
  have hreports : reports = f.reports := hreports
  rw [hreports]
  refine ⟨fun q hq word hword => ?_, fun t ht hkind r hr hcode hanchor => ?_,
    fun hfits r hr hcode t ht => ?_⟩
  · have hjump : q ∈ result.1.program.remarks.jumps :=
      List.mem_filter.mpr ⟨hq, Option.isSome_of_eq_some hword⟩
    obtain ⟨t, ht, hkind⟩ := hnoted.led q hjump
    obtain rfl : word = t.kind := Option.some.inj (hword.symm.trans hkind)
    refine ⟨t, Array.mem_toList_iff.mp ((hnoted.keywords.trans (stretch_sublist ..)).subset ?_), ht,
      rfl, ?_⟩
    · exact List.mem_filterMap.mpr ⟨q, hjump, ht⟩
    · exact hnoted.filter_stray hassembled.told hnodup (hnodup.sublist hassembled.strays) hjump
        hword ht
  · obtain ⟨u, -, rfl⟩ := hassembled.told.eq_stray hr hcode
    obtain rfl : u = t := Anchor.token.inj (Option.some.inj hanchor)
    exact hnoted.stray_notMem_of_return hkind hr
  · obtain ⟨ls, hcovers⟩ := covers_run_of_edited source ops hfits
    obtain ⟨ms, hms, -⟩ := hcovers.readAll
    obtain ⟨u, hu, rfl⟩ := hassembled.told.eq_stray hr hcode
    have hu : u ∈ stream.tokens := Array.mem_toList_iff.mp (hassembled.strays.subset hu)
    constructor
    · intro heq
      rw [hms.location_inj ht hu heq.symm]
      rfl
    · intro hanchor
      obtain rfl : u = t := Anchor.token.inj (Option.some.inj hanchor)
      rfl

theorem misplaced_parse_unlooped :
    let s := (ofSource
      "fn f() \x7b while a \x7b if b \x7b break; \x7d continue; \x7d break; return;\x7d".toList).run
      [.parse, .edit 9 8 []]
    let result := parse s.stream s.memo
    let stream := result.2.1
    let reports := result.1.reports
    (result.1.program.statements.filterMap fun q => q.1.word?.map fun word => (word, q.2)) =
      [(.breakWord, false), (.continueWord, false), (.breakWord, false)] ∧
    (∀ q ∈ result.1.program.statements, ∀ word ∈ q.1.word?,
      ∃ t ∈ stream.tokens, q.1.keyword? = some t ∧ t.kind = word ∧
        (reports.filter fun r => r.anchor = some (.token t) && r.code = .strayToken) =
          if q.2 then [] else [.stray .strayToken t]) ∧
    (∀ t ∈ stream.tokens, t.kind = .returnWord → ∀ r ∈ reports, r.code = .strayToken →
      r.anchor ≠ some (.token t)) ∧
    ∀ r ∈ reports, r.code = .strayToken → ∀ t ∈ stream.tokens,
      (r.location stream.timeline.resolve = stream.location t ↔ r.anchor = some (.token t)) := by
  obtain ⟨hjumps, hreturns, hplaces⟩ := misplaced_parse
    "fn f() \x7b while a \x7b if b \x7b break; \x7d continue; \x7d break; return;\x7d".toList
    [.parse, .edit 9 8 []]
  refine ⟨by decide +kernel, hjumps, hreturns, hplaces fun done hdone _ => ?_⟩
  have hshort : ∀ n < 3, Text.size ((ofSource
      "fn f() \x7b while a \x7b if b \x7b break; \x7d continue; \x7d break; return;\x7d".toList).run
      ([SessionOp.parse, .edit 9 8 []].take n)).stream.source < maxCoordinate := by
    decide +kernel
  have hlt := hshort done.length (Nat.lt_succ_of_le hdone.length_le)
  rw [← List.prefix_iff_eq_take.mp hdone] at hlt
  exact (Text.addressable_iff _).mpr ⟨Nat.le_of_lt hlt, Text.ne_feeds_of_size_lt hlt⟩

end Session

end Reparse
