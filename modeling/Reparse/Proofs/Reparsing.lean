import Reparse.Proofs.DocumentRuns
import Reparse.Proofs.SameTokens

/-!
# Edited documents and new documents

Whatever was done to a document, its tree and its diagnostics are those of a new document that loads
the present source and is parsed once.
-/

namespace Reparse

open Reparse.Parser

def DocumentOp.onText (t : Text) : DocumentOp → Text
  | .load source => if Text.size source ≤ maxCoordinate then source else t
  | .edit start count inserted => (StreamOp.edit start count inserted).onText t
  | _ => t

namespace Document

/-- The stream holds the text `t`, the memo fits the stream, and results that are kept are those of
the present text. -/
structure Valid (lines : Bool) (d : Document) (policy : Policy) (t : Text) : Prop where
  shown : d.policy = policy
  size_le : Text.size t ≤ maxCoordinate
  holds : d.stream.Holds lines t
  session : Session.Valid ⟨d.stream, d.memo⟩
  parsed : ∀ parsed, d.parsed? = some parsed →
    d.stream.ShowsAll lines ∧ parsed.Current policy d.stream

variable {lines : Bool} {d : Document} {policy : Policy} {t : Text}

theorem Settled.valid (h : d.Settled policy) (hsize : Text.size t ≤ maxCoordinate)
    (hholds : d.stream.Holds lines t) : d.Valid lines policy t := by
  refine ⟨h.shown, hsize, hholds, h.session, fun parsed hparsed => ?_⟩
  obtain ⟨hcomplete, hcurrent⟩ := h.parsed parsed hparsed
  obtain ⟨ls, hshows⟩ := hholds.shows
  have hall := hshows.readAll.1
  rw [TokenStream.readAll_of_isComplete hcomplete] at hall
  exact ⟨hall, hcurrent⟩

theorem Valid.settled (h : d.Valid lines policy t) : d.Settled policy := by
  refine ⟨h.shown, h.session, fun parsed hparsed => ?_⟩
  obtain ⟨hall, hcurrent⟩ := h.parsed parsed hparsed
  have hcomplete := d.stream.isComplete_readAll
  rw [TokenStream.readAll_of_showsAll hall] at hcomplete
  exact ⟨hcomplete, hcurrent⟩

theorem valid_load (lines : Bool) (h : d.Settled policy) {source : Text}
    (hsize : Text.size source ≤ maxCoordinate) :
    ∃ d', d.load source = .ok () d' ∧ d'.stream = .ofSource source ∧
      d'.Valid lines policy source := by
  have hsettled := h.load source
  simp only [Document.perform, d.load_of_le hsize] at hsettled
  exact ⟨_, d.load_of_le hsize, rfl, hsettled.valid hsize (TokenStream.holds_ofSource lines source)⟩

theorem Valid.parse (h : d.Valid lines policy t) :
    d.parse.1.Current policy d.stream.readAll ∧ d.parse.2.stream = d.stream.readAll ∧
      d.parse.2.Valid lines policy t := by
  obtain ⟨hcurrent, hstream, hsettled⟩ := h.settled.parse
  obtain ⟨ls, hshows⟩ := h.holds.shows
  obtain ⟨hall, hsource⟩ := hshows.readAll
  refine ⟨hcurrent, hstream, hsettled.valid h.size_le ?_⟩
  rw [hstream]
  exact ⟨hsource.trans h.holds.source, (TokenStream.follows_readAll h.session.numbered).numbered,
    _, hall.1⟩

theorem Valid.edit (h : d.Valid lines policy t) {start count : Nat} {inserted : Text}
    (hfeeds : lines = true →
      (StreamOp.edit start count inserted).onText t ≠ List.replicate maxCoordinate '\n') :
    (d.perform (.edit start count inserted)).Valid lines policy
      ((StreamOp.edit start count inserted).onText t) := by
  obtain ⟨hholds, -⟩ := h.holds.perform (.edit start count inserted) h.size_le hfeeds
  refine (h.settled.edit start count inserted).valid (TokenStream.size_onText_le _ h.size_le) ?_
  cases hedit : d.stream.edit start count inserted with
  | error e s' =>
    have hstream : d.stream.perform (.edit start count inserted) = d.stream := by
      rw [(TokenStream.edit_refused hedit).2] at hedit
      simp only [TokenStream.perform, hedit]
    rw [perform_edit_of_error hedit]
    exact hstream ▸ hholds
  | ok m s' =>
    have hstream : d.stream.perform (.edit start count inserted) = s' := by
      simp only [TokenStream.perform, hedit]
    rw [perform_edit_of_ok hedit]
    exact hstream ▸ hholds

theorem Valid.perform (h : d.Valid lines policy t) (op : DocumentOp)
    (hfeeds : lines = true → op.onText t ≠ List.replicate maxCoordinate '\n') :
    (d.perform op).Valid lines policy (op.onText t) := by
  cases op with
  | load source =>
    rcases Nat.lt_or_ge maxCoordinate (Text.size source) with hlt | hle
    · simp only [Document.perform, DocumentOp.onText, d.load_of_lt hlt, if_neg (Nat.not_le.mpr hlt)]
      exact h
    · obtain ⟨d', hload, -, hvalid⟩ := valid_load lines h.settled hle
      simp only [Document.perform, DocumentOp.onText, hload, if_pos hle]
      exact hvalid
  | edit start count inserted => exact h.edit hfeeds
  | parse => exact h.parse.2.2
  | diagnostics => exact h.parse.2.2
  | stats => exact h.parse.2.2
  | nodeAt p => exact h.parse.2.2

theorem Valid.run_ops (h : d.Valid lines policy t) (ops : List DocumentOp)
    (hfeeds : lines = true → ∀ done, done <+: ops →
      done.foldl DocumentOp.onText t ≠ List.replicate maxCoordinate '\n') :
    (ops.foldl Document.perform d).Valid lines policy (ops.foldl DocumentOp.onText t) := by
  induction ops generalizing d t with
  | nil => exact h
  | cons op ops ih =>
    have hstep := h.perform op fun hlines =>
      hfeeds hlines [op] ((List.cons_prefix_cons).mpr ⟨rfl, List.nil_prefix⟩)
    exact ih hstep fun hlines done hdone =>
      hfeeds hlines (op :: done) ((List.cons_prefix_cons).mpr ⟨rfl, hdone⟩)

theorem valid_new (lines : Bool) (policy : Policy) :
    ({ policy } : Document).Valid lines policy [] :=
  (Settled.new policy).valid (Nat.zero_le _) (TokenStream.holds_ofSource lines [])

/-- A document after any operations, edits that are refused among them, shows the text that these
leave, and for it the tree and the diagnostics that a new document shows. Lines and columns are the
same too, unless a text on the way was the one of 2³² - 1 line feeds, whose last line has no
number. -/
theorem parse_eq_parse_new (lines : Bool) (policy : Policy) (ops : List DocumentOp)
    (hfeeds : lines = true → ∀ done, done <+: ops →
      done.foldl DocumentOp.onText [] ≠ List.replicate maxCoordinate '\n') :
    let d := ops.foldl perform { policy }
    d.source = ops.foldl DocumentOp.onText [] ∧
      ∃ fresh, ({ policy } : Document).load d.source = .ok () fresh ∧
        (d.parse.1.program.map fun i => (d.parse.2.stream.timeline.placeInfo i).seen lines) =
          (fresh.parse.1.program.map fun i =>
            (fresh.parse.2.stream.timeline.placeInfo i).seen lines) ∧
        d.parse.1.diagnostics.map (Diagnostic.seen lines) =
          fresh.parse.1.diagnostics.map (Diagnostic.seen lines) := by
  intro d
  have hd := (valid_new lines policy).run_ops ops hfeeds
  have hsource : d.source = ops.foldl DocumentOp.onText [] := hd.holds.source
  refine ⟨hsource, ?_⟩
  rw [hsource]
  obtain ⟨fresh, hload, hstart, hfresh⟩ := valid_load lines (.new policy) hd.size_le
  refine ⟨fresh, hload, ?_⟩
  obtain ⟨hcurrent, hstream, -⟩ := hd.parse
  obtain ⟨hcurrent', hstream', -⟩ := hfresh.parse
  obtain ⟨_, hshows⟩ := hd.holds.shows
  obtain ⟨hall, hread⟩ := hshows.readAll
  obtain ⟨_, hshows'⟩ := hfresh.holds.shows
  obtain ⟨hall', hread'⟩ := hshows'.readAll
  rw [hd.holds.source] at hread
  rw [hfresh.holds.source] at hread'
  have hids := TokenStream.ids_fresh (ops.foldl DocumentOp.onText [])
  rw [← hstart] at hids
  have hsame := hread.trans hread'.symm
  obtain ⟨htokens, hcarries⟩ := TokenStream.carries_fresh hall hall' hsame hids
  obtain ⟨hprogram, hreports⟩ := bareProgram_renumber htokens
  refine ⟨?_, ?_⟩
  · rw [hcurrent.program, hcurrent'.program, hstream, hstream', hprogram]
    exact hcarries.program _
  · have hfound := hall.diagnostics
    rw [hsame, ← hall'.diagnostics] at hfound
    rw [hcurrent.diagnostics, hcurrent'.diagnostics, Policy.map_seen_finish,
      Policy.map_seen_finish, bareDiagnostics, bareDiagnostics, List.map_append, List.map_append,
      hfound, hreports, Renumber.toList_renumber, hcarries.diagnostics]

theorem parse_eq_parse_new_changed_value :
    let d := [DocumentOp.load ['l', 'e', 't', ' ', 'x', '=', '1'], .parse, .edit 6 1 ['2'],
      .diagnostics].foldl perform {}
    d.source = ['l', 'e', 't', ' ', 'x', '=', '2'] ∧
      ∃ fresh, ({} : Document).load ['l', 'e', 't', ' ', 'x', '=', '2'] = .ok () fresh ∧
        d.parse.1.program.map d.parse.2.stream.timeline.placeInfo =
          fresh.parse.1.program.map fresh.parse.2.stream.timeline.placeInfo ∧
        d.parse.1.diagnostics = fresh.parse.1.diagnostics := by
  have hshort : ∀ n < 5, Text.size (([DocumentOp.load ['l', 'e', 't', ' ', 'x', '=', '1'], .parse,
      .edit 6 1 ['2'], .diagnostics].take n).foldl DocumentOp.onText []) < maxCoordinate := by
    decide
  obtain ⟨hsource, hfresh⟩ := parse_eq_parse_new true {}
    [.load ['l', 'e', 't', ' ', 'x', '=', '1'], .parse, .edit 6 1 ['2'], .diagnostics]
    fun _ done hdone => by
      have hlt := hshort done.length (Nat.lt_succ_of_le hdone.length_le)
      rw [← List.prefix_iff_eq_take.mp hdone] at hlt
      exact Text.ne_feeds_of_size_lt hlt
  have htext : [DocumentOp.load ['l', 'e', 't', ' ', 'x', '=', '1'], .parse, .edit 6 1 ['2'],
      .diagnostics].foldl DocumentOp.onText [] = ['l', 'e', 't', ' ', 'x', '=', '2'] := by
    decide
  rw [hsource, htext] at hfresh
  simp only [PlacedInfo.seen_true, Diagnostic.seen_true] at hfresh
  exact ⟨hsource.trans htext, hfresh⟩

theorem Settled.mem_diagnostics (h : d.Settled .unlimited) {x : Diagnostic} :
    x ∈ d.parse.1.diagnostics ↔ x ∈ bareDiagnostics d.stream.readAll := by
  rw [h.parse.1.diagnostics]
  exact List.mem_mergeSort

theorem diagnostics_ne_of_feeds {n : Nat} (hn : n + 1 = maxCoordinate) :
    let d := [DocumentOp.load (List.replicate n '\n'), .edit 0 0 ['\n'],
      .edit 0 n ['l', 'e', 't']].foldl perform { policy := .unlimited }
    d.source = ['l', 'e', 't', '\n'] ∧
      ∃ fresh, ({ policy := .unlimited } : Document).load ['l', 'e', 't', '\n'] = .ok () fresh ∧
        d.parse.1.diagnostics ≠ fresh.parse.1.diagnostics := by
  intro d
  obtain ⟨m, r, m', r', last, hfeed, hword, hheld⟩ := TokenStream.exists_heldBack hn
  have hsize : Text.size (List.replicate n '\n') ≤ maxCoordinate :=
    (Text.fits_feeds false (Nat.lt_of_succ_le (Nat.le_of_eq hn))).size_le
  have hstream : d.stream = r' := by
    simp only [d, List.foldl_cons, List.foldl_nil, Document.perform, load_of_le _ hsize,
      Document.edit, hfeed, hword]
  have hsettled : d.Settled .unlimited := (Settled.new .unlimited).run_ops _
  have hshort : Text.size ['l', 'e', 't', '\n'] ≤ maxCoordinate := by decide
  obtain ⟨fresh, hload, hstart, hfresh⟩ := valid_load true (Settled.new .unlimited) hshort
  have hlines : ∀ x ∈ bareDiagnostics (TokenStream.ofSource ['l', 'e', 't', '\n']).readAll,
      x.location.range.stop.line = 2 := by
    decide +kernel
  obtain ⟨report, hreport, -, hplace⟩ := hheld.exists_report
  have hread : d.stream.readAll = r' := by
    rw [hstream]
    exact TokenStream.readAll_of_showsAll hheld.shows
  have hshown : report.diagnostic r'.timeline.resolve ∈ d.parse.1.diagnostics := by
    rw [hsettled.mem_diagnostics, hread, bareDiagnostics]
    exact List.mem_append_right _ (List.mem_map_of_mem hreport)
  refine ⟨?_, fresh, hload, fun hsame => ?_⟩
  · rw [source, hstream]
    exact hheld.source
  · rw [hsame, hfresh.settled.mem_diagnostics, hstart] at hshown
    have hline := hlines _ hshown
    have hstop : (report.diagnostic r'.timeline.resolve).location =
        .point 4 (r'.location last).range.stop := hplace
    rw [hstop] at hline
    have hline : (r'.location last).range.stop.line = 2 := hline
    have hfirst := hheld.held
    omega

/-- The text of 2³² - 1 line feeds comes between two shorter ones. After that the document shows
what is missing at the end on another line than a new document does. -/
theorem diagnostics_ne_feeds :
    let d := [DocumentOp.load (List.replicate 4294967294 '\n'), .edit 0 0 ['\n'],
      .edit 0 4294967294 ['l', 'e', 't']].foldl perform { policy := .unlimited }
    d.source = ['l', 'e', 't', '\n'] ∧
      ∃ fresh, ({ policy := .unlimited } : Document).load ['l', 'e', 't', '\n'] = .ok () fresh ∧
        d.parse.1.diagnostics ≠ fresh.parse.1.diagnostics :=
  diagnostics_ne_of_feeds rfl

end Document

end Reparse
