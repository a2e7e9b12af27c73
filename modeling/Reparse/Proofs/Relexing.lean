import Reparse.Proofs.TokenStream.LineFeeds

/-!
# Edited streams and fresh streams

However a stream was read and edited, it holds the source with the edits applied, and the tokens and
diagnostics that a fresh stream finds in this source.
-/

namespace Reparse

inductive StreamOp
  | readNext
  | readTo (i : Nat)
  | readAll
  | edit (start count : Nat) (inserted : Text)
  deriving Repr

namespace StreamOp

def isAccepted (t : Text) : StreamOp → Bool
  | .edit start count inserted => ((TokenStream.ofSource t).checkEdit start count inserted).isOk
  | _ => false

def onText (t : Text) : StreamOp → Text
  | .edit start count inserted =>
    if (StreamOp.edit start count inserted).isAccepted t then
      Text.splice start (runEnd start count) inserted t
    else t
  | _ => t

end StreamOp

namespace TokenStream

def perform (s : TokenStream) : StreamOp → TokenStream
  | .readNext => s.read.2
  | .readTo i => s.readTo i
  | .readAll => s.readAll
  | .edit start count inserted =>
    match s.edit start count inserted with
    | .ok _ s' | .error _ s' => s'

/-- The stream has read a beginning of `t` into tokens with numbers of their own. -/
structure Holds (lines : Bool) (s : TokenStream) (t : Text) : Prop where
  source : s.source = t
  numbered : s.Numbered
  shows : ∃ ls, s.Shows lines ls

variable {lines : Bool} {s : TokenStream} {t : Text}

theorem holds_ofSource (lines : Bool) (source : Text) : (ofSource source).Holds lines source :=
  ⟨rfl, ⟨List.nodup_nil, fun _ ht => absurd ht List.not_mem_nil⟩, [], shows_ofSource lines source⟩

theorem edit_ok_iff (start count : Nat) (inserted : Text) (hsource : s.source = t) :
    (∃ m s', s.edit start count inserted = .ok m s') ↔
      (StreamOp.edit start count inserted).isAccepted t = true := by
  have hcheck : (ofSource t).checkEdit start count inserted =
      s.checkEdit start count inserted := by
    subst hsource
    rfl
  rw [StreamOp.isAccepted, hcheck]
  cases h : s.checkEdit start count inserted with
  | error e =>
    rw [edit_of_error h]
    exact ⟨fun ⟨_, _, h⟩ => (nomatch h), fun h => (nomatch h)⟩
  | ok u => exact ⟨fun _ => rfl, fun _ => ⟨_, _, edit_of_ok h⟩⟩

theorem Holds.readMore (h : s.Holds lines t) (n : Nat) :
    (readMore n s).Holds lines t ∧ (s.ShowsAll lines → (readMore n s).ShowsAll lines) := by
  obtain ⟨ls, hshows⟩ := h.shows
  obtain ⟨ms, hms, hsource, hlength⟩ := hshows.readMore n
  refine ⟨⟨hsource.trans h.source, (follows_readMore n h.numbered).numbered, _, hms⟩, fun hall => ?_⟩
  rw [hall.2] at hlength
  exact hms.showsAll (List.length_eq_zero_iff.mp (Nat.le_zero.mp (by simpa using hlength)))

theorem Holds.readNext (h : s.Holds lines t) :
    s.read.2.Holds lines t ∧ (s.ShowsAll lines → s.read.2.ShowsAll lines) := by
  have hread : s.read.2 = TokenStream.readMore 1 s := by
    rw [readMore_succ]
    split <;> rfl
  rw [hread]
  exact h.readMore 1

theorem size_onText_le (op : StreamOp) (hsize : Text.size t ≤ maxCoordinate) :
    Text.size (op.onText t) ≤ maxCoordinate := by
  cases op with
  | edit start count inserted =>
    rw [StreamOp.onText]
    split
    next haccepted =>
      cases hcheck : (ofSource t).checkEdit start count inserted with
      | error e =>
        rw [StreamOp.isAccepted, hcheck] at haccepted
        cases haccepted
      | ok u =>
        obtain ⟨before, old, behind, hparts, rfl, hstop, hnew⟩ := exists_edited hcheck hsize
        have hparts : t = before ++ old ++ behind := hparts
        rw [← hstop, hparts, Text.splice_append]
        exact hnew
    · exact hsize
  | _ => exact hsize

theorem Holds.perform (h : s.Holds lines t) (op : StreamOp) (hsize : Text.size t ≤ maxCoordinate)
    (hfeeds : lines = true → op.onText t ≠ List.replicate maxCoordinate '\n') :
    (s.perform op).Holds lines (op.onText t) ∧
      (s.ShowsAll lines ∨ op.isAccepted t = true → (s.perform op).ShowsAll lines) := by
  have hfits := Text.fits_of_ne_feeds (size_onText_le op hsize) hfeeds
  cases op with
  | readNext =>
    obtain ⟨hholds, hall⟩ := h.readNext
    exact ⟨hholds, fun hor => hall (hor.resolve_right Bool.false_ne_true)⟩
  | readTo i =>
    obtain ⟨hholds, hall⟩ := h.readMore (i + 1 - s.tokens.size)
    exact ⟨hholds, fun hor => hall (hor.resolve_right Bool.false_ne_true)⟩
  | readAll =>
    obtain ⟨hholds, hall⟩ := h.readMore s.point.rest.length
    exact ⟨hholds, fun hor => hall (hor.resolve_right Bool.false_ne_true)⟩
  | edit start count inserted =>
    -- Whether an edit is accepted depends on the text alone, not on how much of it was read.
    have hok := edit_ok_iff start count inserted h.source
    cases haccepted : (StreamOp.edit start count inserted).isAccepted t with
    | true =>
      obtain ⟨m, s', hedit⟩ := hok.mpr haccepted
      have hperform : s.perform (.edit start count inserted) = s' := by
        simp only [TokenStream.perform, hedit]
      have hsource := h.source
      obtain ⟨ls, hshows⟩ := h.shows
      simp only [StreamOp.onText, haccepted, if_true] at hfits ⊢
      subst hsource
      obtain ⟨hall, hsource'⟩ := shows_edit hshows h.numbered hsize hfits hedit
      rw [hperform]
      exact ⟨⟨hsource', (follows_edit h.numbered hedit).numbered, _, hall.1⟩, fun _ => hall⟩
    | false =>
      have hperform : s.perform (.edit start count inserted) = s := by
        cases hedit : s.edit start count inserted with
        | error e s' =>
          obtain ⟨-, rfl⟩ := edit_refused hedit
          simp only [TokenStream.perform, hedit]
        | ok m s' =>
          rw [hok.mp ⟨m, s', hedit⟩] at haccepted
          cases haccepted
      have htext : (StreamOp.edit start count inserted).onText t = t := by
        simp only [StreamOp.onText, haccepted]
        rfl
      rw [hperform, htext]
      exact ⟨h, fun hor => hor.resolve_right Bool.false_ne_true⟩

theorem Holds.run (h : s.Holds lines t) (ops : List StreamOp) (hsize : Text.size t ≤ maxCoordinate)
    (hfeeds : lines = true → ∀ done, done <+: ops →
      done.foldl StreamOp.onText t ≠ List.replicate maxCoordinate '\n') :
    (ops.foldl TokenStream.perform s).Holds lines (ops.foldl StreamOp.onText t) ∧
      ((s.ShowsAll lines ∨ ∃ done op, done ++ [op] <+: ops ∧
        op.isAccepted (done.foldl StreamOp.onText t) = true) →
          (ops.foldl TokenStream.perform s).ShowsAll lines) := by
  induction ops generalizing s t with
  | nil =>
    refine ⟨h, fun hor => hor.resolve_right ?_⟩
    rintro ⟨done, op, hprefix, -⟩
    exact absurd (List.prefix_nil.mp hprefix) (by simp)
  | cons op ops ih =>
    obtain ⟨hholds, hall⟩ := h.perform op hsize fun hlines =>
      hfeeds hlines [op] ((List.cons_prefix_cons).mpr ⟨rfl, List.nil_prefix⟩)
    obtain ⟨hrun, hrunAll⟩ := ih hholds (size_onText_le op hsize) fun hlines done hdone =>
      hfeeds hlines (op :: done) ((List.cons_prefix_cons).mpr ⟨rfl, hdone⟩)
    refine ⟨hrun, fun hor => hrunAll ?_⟩
    rcases hor with hbefore | ⟨done, op', hprefix, haccepted⟩
    · exact .inl (hall (.inl hbefore))
    · cases done with
      | nil =>
        obtain ⟨rfl, -⟩ := (List.cons_prefix_cons).mp hprefix
        exact .inl (hall (.inr haccepted))
      | cons op₁ done =>
        obtain ⟨rfl, htail⟩ := (List.cons_prefix_cons).mp hprefix
        exact .inr ⟨done, op', htail, haccepted⟩

/-- A stream that was read and edited in any order holds what a fresh stream finds in the edited
text: once it is read to its end, and right away if an edit was accepted. Lines and columns are the
same too, unless a text on the way was the one of 2³² - 1 line feeds, whose last line has no
number. -/
theorem run_eq_fresh (lines : Bool) (source : Text) (ops : List StreamOp)
    (hsize : Text.size source ≤ maxCoordinate)
    (hfeeds : lines = true → ∀ done, done <+: ops →
      done.foldl StreamOp.onText source ≠ List.replicate maxCoordinate '\n') :
    let s := ops.foldl perform (ofSource source)
    let text := ops.foldl StreamOp.onText source
    let fresh := (ofSource text).readAll
    s.source = text ∧
      s.readAll.tokens.toList.map (fun t => (s.readAll.place t).seen lines) =
        fresh.tokens.toList.map (fun t => (fresh.place t).seen lines) ∧
      s.readAll.diagnostics.map (Diagnostic.seen lines) =
        fresh.diagnostics.map (Diagnostic.seen lines) ∧
      ((∃ done op, done ++ [op] <+: ops ∧
        op.isAccepted (done.foldl StreamOp.onText source) = true) → s.readAll = s) := by
  intro s text fresh
  obtain ⟨hholds, hall⟩ := (holds_ofSource lines source).run ops hsize hfeeds
  have hsource : s.source = text := hholds.source
  obtain ⟨ls, hshows⟩ := hholds.shows
  obtain ⟨hread, hreadSource⟩ := hshows.readAll
  obtain ⟨hfresh, hfreshSource⟩ := (shows_ofSource lines text).readAll
  have hsame : s.readAll.source = fresh.source := hreadSource.trans (hsource.trans hfreshSource.symm)
  refine ⟨hsource, ?_, ?_, fun haccepted => readAll_of_showsAll (hall (.inr haccepted))⟩
  · rw [hread.placed, hfresh.placed, hsame]
  · rw [hread.diagnostics, hfresh.diagnostics, hsame]

theorem run_eq_fresh_typed_digit :
    let s := [StreamOp.readNext, .edit 2 0 ['5']].foldl perform (ofSource ['1', '.', ' ', 'a'])
    let fresh := (ofSource ['1', '.', '5', ' ', 'a']).readAll
    s.source = ['1', '.', '5', ' ', 'a'] ∧
      s.tokens.toList.map s.place = fresh.tokens.toList.map fresh.place ∧
      s.diagnostics = fresh.diagnostics := by
  have hshort : ∀ n < 3, Text.size (([StreamOp.readNext, .edit 2 0 ['5']].take n).foldl
      StreamOp.onText ['1', '.', ' ', 'a']) < maxCoordinate := by
    decide
  have hfeeds : ∀ done, done <+: [StreamOp.readNext, .edit 2 0 ['5']] →
      done.foldl StreamOp.onText ['1', '.', ' ', 'a'] ≠ List.replicate maxCoordinate '\n' := by
    intro done hdone
    have hlt := hshort done.length (Nat.lt_succ_of_le hdone.length_le)
    rw [← List.prefix_iff_eq_take.mp hdone] at hlt
    exact Text.ne_feeds_of_size_lt hlt
  obtain ⟨hsource, htokens, hdiagnostics, hdone⟩ :=
    run_eq_fresh true ['1', '.', ' ', 'a'] [.readNext, .edit 2 0 ['5']] (by decide) fun _ => hfeeds
  have htext : [StreamOp.readNext, .edit 2 0 ['5']].foldl StreamOp.onText ['1', '.', ' ', 'a'] =
      ['1', '.', '5', ' ', 'a'] := by
    decide
  rw [hdone ⟨[.readNext], .edit 2 0 ['5'], List.prefix_rfl, by decide⟩] at htokens hdiagnostics
  rw [htext] at hsource htokens hdiagnostics
  rw [Diagnostic.seen_true, Diagnostic.seen_true] at hdiagnostics
  exact ⟨hsource, htokens, hdiagnostics⟩

theorem HeldBack.place_ne {last : Token} (h : s.HeldBack last) :
    s.tokens.toList.map s.place ≠
      (ofSource ['l', 'e', 't', '\n']).readAll.tokens.toList.map
        (ofSource ['l', 'e', 't', '\n']).readAll.place := by
  intro hsame
  have hlast := congrArg (fun l => l.getLast?.map fun t => t.location.range.stop.line) hsame
  have hfresh : (((ofSource ['l', 'e', 't', '\n']).readAll.tokens.toList.map
      (ofSource ['l', 'e', 't', '\n']).readAll.place).getLast?.map
        fun t => t.location.range.stop.line) = some 2 := by
    decide +kernel
  have hback : s.tokens.toList.getLast? = some last := by
    rw [Array.getLast?_toList]
    exact h.tokens
  have hheld : (s.place last).location.range.stop.line ≤ 1 := h.held
  rw [hfresh, List.getLast?_map, hback, Option.map_some, Option.map_some] at hlast
  rw [Option.some.inj hlast] at hheld
  exact absurd hheld (by decide)

theorem run_ne_fresh_of_feeds {n : Nat} (hn : n + 1 = maxCoordinate) :
    let s := [StreamOp.edit 0 0 ['\n'], .edit 0 n ['l', 'e', 't']].foldl perform
      (ofSource (List.replicate n '\n'))
    let fresh := (ofSource ['l', 'e', 't', '\n']).readAll
    s.source = ['l', 'e', 't', '\n'] ∧
      s.tokens.toList.map s.place ≠ fresh.tokens.toList.map fresh.place := by
  intro s fresh
  obtain ⟨m, r, m', r', last, hfeed, hword, hheld⟩ := exists_heldBack hn
  have hs : s = r' := by
    simp only [s, List.foldl_cons, List.foldl_nil, perform, hfeed, hword]
  rw [hs]
  exact ⟨hheld.source, hheld.place_ne⟩

/-- The text of 2³² - 1 line feeds comes between two shorter ones. The last token of the stream ends
on another line then than the last token of a fresh stream. -/
theorem run_ne_fresh_feeds :
    let s := [StreamOp.edit 0 0 ['\n'], .edit 0 4294967294 ['l', 'e', 't']].foldl perform
      (ofSource (List.replicate 4294967294 '\n'))
    let fresh := (ofSource ['l', 'e', 't', '\n']).readAll
    s.source = ['l', 'e', 't', '\n'] ∧
      s.tokens.toList.map s.place ≠ fresh.tokens.toList.map fresh.place :=
  run_ne_fresh_of_feeds rfl

end TokenStream

end Reparse
