import Mathlib.Data.List.TakeWhile
import Reparse.Proofs.TokenStream.Retirement

/-!
# Splicing tokens

A mutation takes a run of tokens out of the list and puts others in its place. The tokens around
that run are the same objects as before. What is put in is cut out of the new source from where the
run started, up to the first place where an old token comes out again, and no further.
-/

namespace Reparse

open Lexeme (Cuts joined spread sights)

theorem Lexeme.size_le_of_mem_spread {before : Text} {ls : List Lexeme} :
    ∀ x ∈ spread before ls, Text.size before ≤ Text.size x.1 := by
  induction ls generalizing before with
  | nil => exact fun x hx => absurd hx List.not_mem_nil
  | cons l ls ih =>
    intro x hx
    rcases List.mem_cons.mp hx with rfl | hx
    · exact Nat.le_refl _
    · have hle := ih x hx
      rw [Text.size_append] at hle
      omega

theorem Lexeme.pairwise_spread (before : Text) (ls : List Lexeme) :
    (spread before ls).Pairwise fun x y => Text.size x.1 < Text.size y.1 := by
  induction ls generalizing before with
  | nil => exact .nil
  | cons l ls ih =>
    refine .cons (fun x hx => ?_) (ih (before ++ l.text))
    have hle := size_le_of_mem_spread x hx
    have hpos := l.size_pos
    rw [Text.size_append] at hle
    rw [Lexeme.size] at hpos
    exact Nat.lt_of_lt_of_le (Nat.lt_add_of_pos_right hpos) hle

namespace Survivor

variable {olds : List Survivor}

theorem StartAt.pairwise {before : Text} {cs : List Lexeme} (h : StartAt olds before cs) :
    olds.Pairwise fun o o' => o.start < o'.start := by
  rw [← List.pairwise_map (f := Survivor.start), h, List.pairwise_map]
  exact (Lexeme.pairwise_spread before cs).imp fun hlt => Int.ofNat_lt.mpr hlt

theorem not_matchesLexeme_of_ne {o : Survivor} {p : ReadPoint} (h : o.start ≠ p.offset)
    (l : Lexeme) : o.matchesLexeme p l = false := by
  rw [matchesLexeme, decide_eq_false h]
  rfl

theorem offset_le_of_cut {p next : ReadPoint} {l : Lexeme} (h : p.cut? = some (l, next)) :
    p.offset ≤ next.offset := by
  unfold ReadPoint.cut? at h
  split at h
  · cases h
  · rw [← (Prod.mk.inj (Option.some.inj h)).2]
    exact Nat.le_add_right ..

theorem not_matches_passed {o : Survivor} {p : ReadPoint} {found : List FoundLexeme}
    (ho : o.start < p.offset) (hfound : ∀ f ∈ found, p.offset ≤ f.point.offset) :
    ∀ f ∈ found, o.matchesLexeme f.point f.lexeme = false := by
  intro f hf
  have hle := hfound f hf
  exact not_matchesLexeme_of_ne (by omega) f.lexeme

theorem offset_le_of_mem_rescan (fuel : Nat) (p : ReadPoint) (olds : List Survivor) :
    ∀ f ∈ (rescan fuel p olds).1, p.offset ≤ f.point.offset := by
  induction fuel generalizing p olds with
  | zero => exact fun f hf => absurd hf List.not_mem_nil
  | succ fuel ih =>
    simp only [rescan]
    cases hcut : p.cut? with
    | none => exact fun f hf => absurd hf List.not_mem_nil
    | some cut =>
      obtain ⟨l, next⟩ := cut
      have hnext := offset_le_of_cut hcut
      have hbehind : ∀ olds', ∀ f ∈ (⟨p, l⟩ : FoundLexeme) :: (rescan fuel next olds').1,
          p.offset ≤ f.point.offset := by
        intro olds' f hf
        rcases List.mem_cons.mp hf with rfl | hf
        · exact Nat.le_refl _
        · exact Nat.le_trans hnext (ih next olds' f hf)
      dsimp only
      split
      · exact hbehind []
      next o rest _ =>
        split
        · exact fun f hf => absurd hf List.not_mem_nil
        · exact hbehind (o :: rest)

theorem not_matches_ahead {p : ReadPoint} {l : Lexeme} {o : Survivor} {rest : List Survivor}
    (hstarts : (o :: rest).Pairwise fun o o' => o.start < o'.start) (ho : p.offset ≤ o.start)
    (hother : o.matchesLexeme p l = false) :
    ∀ o' ∈ o :: rest, o'.matchesLexeme p l = false := by
  intro o' ho'
  rcases List.mem_cons.mp ho' with rfl | ho'
  · exact hother
  · have hlt := (List.pairwise_cons.mp hstarts).1 o' ho'
    exact not_matchesLexeme_of_ne (by omega) l

theorem rescan_early (fuel : Nat) (p : ReadPoint)
    (hstarts : olds.Pairwise fun o o' => o.start < o'.start) :
    ∀ f ∈ (rescan fuel p olds).1, ∀ o ∈ olds, o.matchesLexeme f.point f.lexeme = false := by
  induction fuel generalizing p olds with
  | zero => exact fun f hf => absurd hf List.not_mem_nil
  | succ fuel ih =>
    let passed : Survivor → Bool := fun o => decide (o.start < (p.offset : Int))
    have hforward := offset_le_of_mem_rescan (fuel + 1) p olds
    suffices hahead : ∀ f ∈ (rescan (fuel + 1) p olds).1,
        ∀ o ∈ olds.dropWhile passed, o.matchesLexeme f.point f.lexeme = false by
      intro f hf o ho
      rw [← List.takeWhile_append_dropWhile (l := olds) (p := passed), List.mem_append] at ho
      rcases ho with ho | ho
      · have hlt := List.mem_takeWhile_imp ho
        exact not_matches_passed (of_decide_eq_true hlt) hforward f hf
      · exact hahead f hf o ho
    simp only [rescan]
    cases hcut : p.cut? with
    | none => exact fun f hf => absurd hf List.not_mem_nil
    | some cut =>
      obtain ⟨l, next⟩ := cut
      dsimp only
      split
      next hnone =>
        rw [hnone]
        exact fun f _ o ho => absurd ho List.not_mem_nil
      next o rest hsome =>
        have hleft := (List.dropWhile_suffix passed (l := olds)).sublist
        have hrest := hstarts.sublist (hsome ▸ hleft)
        have hhead : p.offset ≤ o.start := by
          have hnot := List.head?_dropWhile_not passed olds
          rw [hsome] at hnot
          simpa [passed] using hnot
        rw [hsome]
        split
        · exact fun f hf => absurd hf List.not_mem_nil
        next hother =>
          intro f hf
          rcases List.mem_cons.mp hf with rfl | hf
          · exact not_matches_ahead hrest hhead (Bool.eq_false_iff.mpr hother)
          · exact ih next hrest f hf

end Survivor

namespace TokenStream

variable {lines : Bool} {r s' : TokenStream} {ls : List Lexeme}

/-- The stream `s'` is what becomes of `r`, which has been read to its end, when `count` of its
tokens, counted from index `first`, are exchanged for the tokens of `text`. The last tokens of `r`,
which are `kept`, are also the last ones of `s'`. -/
structure Spliced (r : TokenStream) (first count : Nat) (text : Text) (m : Mutation)
    (s' : TokenStream) (kept : List Token) : Prop where
  index : m.first = first
  old_tokens : r.tokens.toList = r.tokens.toList.take first ++ m.removed ++ kept
  new_tokens : s'.tokens.toList = r.tokens.toList.take first ++ m.inserted ++ kept
  requested : (r.tokens.toList.drop first).take count <+: m.removed
  old_source : r.source = r.tokens.toList.flatMap Token.text
  new_source : s'.source = (r.tokens.toList.take first).flatMap Token.text ++ text ++
    (r.tokens.toList.drop (first + count)).flatMap Token.text
  fresh : m.inserted.map Token.id = List.range' r.nextId m.inserted.length
  nextId : s'.nextId = r.nextId + m.inserted.length
  scanned : ∃ ls, Cuts (text ++ (r.tokens.toList.drop (first + count)).flatMap Token.text) ls
      (kept.flatMap Token.text) ∧
    m.inserted.map (fun t => (t.kind, t.text)) = ls.map fun l => (l.kind, l.text)
  covered : s'.tokens.toList.flatMap Token.text = s'.source
  abuts : ∀ front t back, s'.tokens.toList = front ++ t :: back →
    (s'.location t).span = ⟨Text.size (front.flatMap Token.text),
      Text.size (front.flatMap Token.text) + t.size⟩
  early : ∀ t ∈ m.inserted, ∀ o ∈ r.tokens.toList.drop (first + count),
    ¬(t.kind = o.kind ∧ t.text = o.text ∧ ((s'.location t).span.start : Int) =
      (r.location o).span.start + ((Text.size text : Int) -
        Text.size (((r.tokens.toList.drop first).take count).flatMap Token.text)))

theorem Spliced.of_reporter {reporter : Reporter Anchor} {first count : Nat} {text : Text}
    {m : Mutation} {kept : List Token}
    (h : Spliced { r with reporter } first count text m s' kept) :
    r.Spliced first count text m s' kept :=
  { h with }

theorem spliced_restart (hcovers : r.Covers lines ls) (hrest : r.point.rest = [])
    (htokens : r.tokens = #[]) (text : Text) :
    r.Spliced 0 0 text (r.restart text).1 (r.restart text).2 [] := by
  obtain ⟨ms, hms⟩ := hcovers.restart htokens text
  obtain ⟨hall, hsource⟩ : (r.restart text).2.ShowsAll lines ∧ (r.restart text).2.source = text :=
    shows_restart text hcovers.inStep htokens
  obtain ⟨fresh, hfresh, hids, hnext⟩ := tokens_readMore text.length
    { r with source := text, point := .start text, reporter := r.reporter.clear }
  have hinserted : (r.restart text).1.inserted = fresh := by
    have hnil : r.tokens.toList = [] := by rw [htokens]
    exact hfresh.trans (congrArg (· ++ fresh) hnil)
  have htexts := hms.covered hall.2
  refine
    { index := rfl
      old_tokens := ?_
      new_tokens := ?_
      requested := ?_
      old_source := (hcovers.covered hrest).symm
      new_source := ?_
      fresh := ?_
      nextId := ?_
      scanned := ⟨Lexeme.all text, ?_, ?_⟩
      covered := htexts
      abuts := fun _ _ _ ht => Location.span_of_seen (hms.location_behind ht)
      early := fun t _ o ho => ?_ }
  · rw [htokens]
    rfl
  · rw [htokens]
    exact (List.append_nil _).symm
  · rw [htokens]
    exact List.prefix_rfl
  · rw [htokens, hsource]
    exact (List.append_nil _).symm
  · rw [hinserted]
    exact hids
  · rw [hinserted]
    exact hnext
  · rw [htokens]
    exact (List.append_nil text).symm ▸ .all text
  · have hwords := hall.1.words
    rw [hsource] at hwords
    exact hwords
  · rw [htokens] at ho
    exact absurd ho List.not_mem_nil

theorem removed_length_le (r : TokenStream) {first count : Nat}
    (hcount : first + count ≤ r.tokens.size) (text : Text) :
    count ≤ r.tokens.size - first - (r.rescanned first count text).2.length := by
  have hkept := (r.rescanned_suffix first count text).length_le
  rw [List.length_drop, Array.length_toList] at hkept
  omega

theorem exists_found_of_mem_inserted {first count : Nat} {text : Text} {t : Token}
    (ht : t ∈ (r.exchange first count text).1.inserted) :
    ∃ f ∈ (r.rescanned first count text).1, t.kind = f.lexeme.kind ∧ t.text = f.lexeme.text ∧
      ((r.exchange first count text).2.location t).span.start = f.point.offset := by
  have hmem := List.mem_map_of_mem
    (f := (r.exchangeMade first count text).2.timeline.sight true) ht
  obtain ⟨f, hf, hsight⟩ := List.mem_map.mp (r.sight_exchangeMade first count text ▸ hmem)
  rw [← timeline_exchange, Timeline.sight_true] at hsight
  have hlive : (r.exchange first count text).2.timeline.live? t.id = some f.placement :=
    (congrArg (fun x => x.2.2) hsight).symm
  refine ⟨f, hf, (congrArg (fun x => x.1) hsight).symm, (congrArg (fun x => x.2.1) hsight).symm, ?_⟩
  rw [location, Timeline.location, Timeline.placement_of_live hlive]
  rfl

namespace Parted

variable {ts us vs : List Token} {as bs cs : List Lexeme} (h : r.Parted lines ts us vs as bs cs)
include h

theorem scanned (text : Text) : ∃ ms,
    Cuts (text ++ joined cs) ms ((r.rescanned ts.length us.length text).2.flatMap Token.text) ∧
      (r.exchange ts.length us.length text).1.inserted.map (fun t => (t.kind, t.text)) =
        ms.map fun l => (l.kind, l.text) := by
  have hsurvivors := (h.survivors text).2
  obtain ⟨gone, stay, ds, es, ms, holds, rfl, hgone, hkept, hfound, hcuts, -⟩ := h.resumes text
  have hstay : (stay.map Survivor.token).flatMap Token.text = joined es := by
    have hthird := h.third
    rw [holds, List.map_append] at hsurvivors
    rw [← hsurvivors, List.map_append, Lexeme.sights_append] at hthird
    refine texts_of_sights (List.append_inj hthird ?_).2
    rw [List.length_map, List.length_map, Lexeme.length_sights, hgone]
  refine ⟨ms, ?_, ?_⟩
  · rw [hkept, hstay]
    exact hcuts
  · have hmade := (r.sight_exchangeMade ts.length us.length text).trans hfound.sights
    have hwords := congrArg (List.map fun x => (x.1, x.2.1)) hmade
    rw [List.map_map, Lexeme.sights_words] at hwords
    exact hwords

theorem early (text : Text) {t o : Token}
    (ht : t ∈ (r.exchange ts.length us.length text).1.inserted) (ho : o ∈ vs) :
    ¬(t.kind = o.kind ∧ t.text = o.text ∧
      (((r.exchange ts.length us.length text).2.location t).span.start : Int) =
        (r.location o).span.start + ((Text.size text : Int) - Text.size (joined bs))) := by
  rintro ⟨hkind, htext, hstart⟩
  obtain ⟨f, hf, hfkind, hftext, hfstart⟩ := exists_found_of_mem_inserted ht
  have hmem : (⟨o, ((r.location o).span.start : Int) +
      (r.exchangeShift ts.length us.length text).byteOffset⟩ : Survivor) ∈
        r.survivors ts.length us.length text := by
    rw [TokenStream.survivors, h.drop_tokens]
    exact List.mem_map_of_mem ho
  have hother := Survivor.rescan_early _ _ (h.survivors text).1.pairwise f hf _ hmem
  rw [hfstart] at hstart
  rw [Survivor.matchesLexeme, h.byteOffset, ← hstart, ← hkind, ← htext, hfkind, hftext] at hother
  simp at hother

end Parted

theorem Covers.spliced_exchange (h : r.Covers lines ls) (hrest : r.point.rest = [])
    (hnumbered : r.Numbered) {first count : Nat} (hcount : first + count ≤ r.tokens.size)
    (text : Text) (hfits : Text.Fits lines (r.exchange first count text).2.source) :
    r.Spliced first count text (r.exchange first count text).1 (r.exchange first count text).2
      (r.rescanned first count text).2 := by
  obtain ⟨ms', hcovers'⟩ := h.exchange hrest hnumbered hcount text hfits
  have hremoved := r.removed_length_le hcount text
  obtain ⟨ts, us, vs, as, bs, cs, rfl, rfl, rfl, hparted⟩ := h.exists_parted hrest hcount
  have hts := texts_of_sights hparted.first
  have hus := texts_of_sights hparted.second
  have hvs := texts_of_sights hparted.third
  have hrest' : (r.exchange ts.length us.length text).2.point.rest = [] := by
    rw [exchange_frame]
    rfl
  refine
    { index := rfl
      old_tokens := r.tokens_parted _ _ text
      new_tokens := r.exchange_tokens _ _ text
      requested := List.take_prefix_take_left hremoved
      old_source := (h.covered hrest).symm
      new_source := ?_
      fresh := r.exchange_fresh _ _ text
      nextId := ?_
      scanned := ?_
      covered := hcovers'.covered hrest'
      abuts := fun _ _ _ ht => Location.span_of_seen (hcovers'.location_behind ht)
      early := ?_ }
  · rw [hparted.take_tokens, hparted.drop_tokens, hts, hvs, source_exchange]
    exact hparted.exchangedSource text
  · rw [exchange_nextId, ← length_exchangeMade]
    rfl
  · rw [hparted.drop_tokens, hvs]
    exact hparted.scanned text
  · rw [hparted.drop_tokens, hparted.run_tokens, hus]
    exact fun t ht o ho => hparted.early text ht ho

/-- A mutation of a stream at any time. Indices past the end count as the end. -/
theorem Covers.spliced_mutate (h : r.Covers lines ls) (hnumbered : r.Numbered) (first count : Nat)
    (text : Text) (hfits : Text.Fits lines (r.mutate first count text).2.source) :
    ∃ kept, r.readAll.Spliced (min first r.readAll.tokens.size)
      (min count (r.readAll.tokens.size - min first r.readAll.tokens.size)) text
      (r.mutate first count text).1 (r.mutate first count text).2 kept := by
  obtain ⟨ms, hms, hrest⟩ := h.readAllMuted
  have hnumbered' := (follows_readAllMuted hnumbered).numbered
  have hmuted := r.readAllMuted_eq
  have hsize : r.readAllMuted.tokens.size = r.readAll.tokens.size := by rw [hmuted]
  have hsilent : Covers lines { r.readAllMuted with
      reporter := r.readAllMuted.reporter.emptySink } ms :=
    ⟨hms.toLays.congr rfl rfl rfl rfl, hms.source, hms.cut⟩
  rw [← hsize]
  suffices hspliced : ∃ kept, Spliced { r.readAllMuted with
      reporter := r.readAllMuted.reporter.emptySink } (min first r.readAllMuted.tokens.size)
      (min count (r.readAllMuted.tokens.size - min first r.readAllMuted.tokens.size)) text
      (r.mutate first count text).1 (r.mutate first count text).2 kept by
    obtain ⟨kept, hspliced⟩ := hspliced
    have hread := hspliced.of_reporter
    rw [hmuted] at hread ⊢
    exact ⟨kept, hread.of_reporter⟩
  unfold TokenStream.mutate at hfits ⊢
  cases hempty : r.readAllMuted.tokens.isEmpty with
  | true =>
    have hnil := Array.isEmpty_iff.mp hempty
    have hzero : r.readAllMuted.tokens.size = 0 := congrArg Array.size hnil
    simp only [hempty, if_true]
    rw [hzero, Nat.min_zero, Nat.sub_zero, Nat.min_zero]
    exact ⟨[], spliced_restart hsilent hrest hnil text⟩
  | false =>
    simp only [hempty, Bool.false_eq_true, if_false] at hfits ⊢
    exact ⟨_, hsilent.spliced_exchange hrest (hnumbered'.congr rfl rfl) (by dsimp only; omega) text
      hfits⟩

end TokenStream

namespace Session

/-- Whatever was done to a stream before, exchanging some of its tokens for those of a text splices
the new tokens in, as long as the offsets of every text on the way are 32-bit numbers. -/
theorem spliced_run (source : Text) (ops : List SessionOp) (first count : Nat) (text : Text)
    (hsizes : ∀ done, done <+: ops ++ [.mutate first count text] →
      Text.size ((ofSource source).run done).stream.source ≤ maxCoordinate) :
    let s := ((ofSource source).run ops).stream
    let r := s.readAll
    ∃ kept, r.Spliced (min first r.tokens.size) (min count (r.tokens.size - min first r.tokens.size))
      text (s.mutate first count text).1 (s.mutate first count text).2 kept := by
  have hvalid := valid_ofSource source
  have hstart := TokenStream.covers_ofSource false source
  obtain ⟨ms, hms⟩ := covers_run hvalid hstart ops fun done op hdone _ =>
    Text.fits_of_size (hsizes (done ++ [op]) (hdone.trans (List.prefix_append ..)))
  have hlast := hsizes _ List.prefix_rfl
  rw [run, List.foldl_append] at hlast
  exact hms.spliced_mutate (hvalid.run ops).numbered first count text (Text.fits_of_size hlast)

theorem spliced_run_joined_word :
    let s := ((ofSource ['a', ' ', 'b', ';']).run [.readNext]).stream
    let r := s.readAll
    ∃ kept, r.Spliced 1 1 ['c'] (s.mutate 1 1 ['c']).1 (s.mutate 1 1 ['c']).2 kept :=
  spliced_run ['a', ' ', 'b', ';'] [.readNext] 1 1 ['c'] fun done hdone =>
    (addressable_of_take (by decide +kernel) done hdone).size_le

end Session

end Reparse
