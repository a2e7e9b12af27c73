import Reparse.Proofs.Lexeme.OwnText
import Reparse.Proofs.MemoTransparency
import Reparse.Proofs.TokenStream.LineFeeds

/-!
# Tokens tile the source

A mutation of tokens may leave tokens that no fresh stream would cut: nothing asks whether those
before the exchanged ones would still come out. But whatever is done to a stream, its tokens lie one
behind the other over all the source that has been read, each knows its place, and the reports are
those about the faults found in them.
-/

namespace Reparse

open Lexeme (Cuts joined sights)

theorem Lexeme.Cuts.exists_leading {t u : Text} {ls : List Lexeme} (h : Cuts t ls u) :
    ∀ l ∈ ls, ∃ c cs, l = Lexeme.leading c cs := by
  induction h with
  | nil t => exact fun l hl => absurd hl List.not_mem_nil
  | @cons c cs rest ls tail ih =>
    intro l hl
    rcases List.mem_cons.mp hl with rfl | hl
    · exact ⟨c, cs, rfl⟩
    · exact ih l hl

def Token.fault? (t : Token) : Option Code :=
  match t.text with
  | [] => none
  | c :: cs => (Lexeme.leading c cs).fault

theorem Token.fault?_of_leading {t : Token} {c : Char} {cs : Text}
    (h : t.text = (Lexeme.leading c cs).text) : t.fault? = (Lexeme.leading c cs).fault := by
  rw [Token.fault?, h, Lexeme.text, Lexeme.leading_first]
  exact congrArg Lexeme.fault (Lexeme.leading_own_text c cs)

namespace TokenStream

/-- What a stream is like at any time. Lines and columns are looked at if `lines` is set. The last two
fields are about numbers and faults, the others about places. -/
structure Tiled (lines : Bool) (s : TokenStream) : Prop where
  nonempty : ∀ t ∈ s.tokens, t.text ≠ []
  starts : ∀ t, s.tokens[0]? = some t → (s.location t).span.start = 0
  abuts : ∀ i t u, s.tokens[i]? = some t → s.tokens[i + 1]? = some u →
    (s.location u).span.start = (s.location t).span.stop
  scanned : s.tokens.toList.flatMap Token.text = Text.takeBytes s.point.offset s.source
  complete : s.isComplete = true → s.tokens.toList.flatMap Token.text = s.source
  range : lines = true → ∀ t ∈ s.tokens, (s.location t).range =
    ⟨Position.origin.advance (Text.takeBytes (s.location t).span.start s.source),
      Position.origin.advance (Text.takeBytes (s.location t).span.stop s.source)⟩
  numbered : s.Numbered
  diagnostics : s.diagnostics = s.tokens.toList.filterMap fun t => t.fault?.map fun code =>
    .ofReport code (Lexeme.faultArgs code t.text) (s.location t)

/-- The tokens are lexemes that were cut somewhere, and cover the source that has been read. -/
structure Covers (lines : Bool) (s : TokenStream) (ls : List Lexeme) : Prop
    extends Lays lines s ls where
  source : s.source = joined ls ++ s.point.rest
  cut : ∀ l ∈ ls, ∃ c cs, l = Lexeme.leading c cs

variable {lines : Bool} {s : TokenStream} {ls : List Lexeme}

theorem covers_ofSource (lines : Bool) (source : Text) : (ofSource source).Covers lines [] :=
  ⟨(shows_ofSource lines source).toLays, rfl, fun _ hl => absurd hl List.not_mem_nil⟩

theorem Covers.readMore (h : s.Covers lines ls) (n : Nat) :
    ∃ ms, (TokenStream.readMore n s).Covers lines ms ∧
      (TokenStream.readMore n s).point.rest.length ≤ s.point.rest.length - n := by
  obtain ⟨ms, hms, hcuts, hsource, hlength⟩ := h.toLays.readMore n
  refine ⟨ls ++ ms, ⟨hms, ?_, fun l hl => ?_⟩, hlength⟩
  · rw [hsource, h.source, hcuts.joined, Lexeme.joined_append, List.append_assoc]
  · exact (List.mem_append.mp hl).elim (h.cut l) (hcuts.exists_leading l)

theorem Covers.read (h : s.Covers lines ls) : ∃ ms, s.read.2.Covers lines ms := by
  obtain ⟨ms, hms, -⟩ := h.readMore 1
  rw [readMore_succ] at hms
  refine ⟨ms, ?_⟩
  split at hms <;> exact hms

theorem Covers.readAll (h : s.Covers lines ls) :
    ∃ ms, s.readAll.Covers lines ms ∧ s.readAll.point.rest = [] := by
  obtain ⟨ms, hms, hlength⟩ := h.readMore s.point.rest.length
  rw [Nat.sub_self] at hlength
  exact ⟨ms, hms, List.length_eq_zero_iff.mp (Nat.le_zero.mp hlength)⟩

theorem Covers.readAllMuted (h : s.Covers lines ls) :
    ∃ ms, s.readAllMuted.Covers lines ms ∧ s.readAllMuted.point.rest = [] := by
  have hmuted : Covers lines { s with reporter := s.reporter.mute true } ls :=
    ⟨h.toLays.congr rfl rfl rfl rfl, h.source, h.cut⟩
  obtain ⟨ms, hms, hrest⟩ := hmuted.readAll
  exact ⟨ms, ⟨hms.toLays.congr rfl rfl rfl rfl, hms.source, hms.cut⟩, hrest⟩

theorem Covers.restart (h : s.Covers lines ls) (htokens : s.tokens = #[]) (source : Text) :
    ∃ ms, (s.restart source).2.Covers lines ms := by
  have hstart :
      Covers lines { s with source, point := .start source, reporter := s.reporter.clear } [] :=
    ⟨lays_start source h.inStep htokens, rfl, fun _ hl => absurd hl List.not_mem_nil⟩
  obtain ⟨ms, hms, -⟩ := hstart.readAll
  exact ⟨ms, hms⟩

theorem source_exchange (s : TokenStream) (first count : Nat) (text : Text) :
    (s.exchange first count text).2.source = s.exchangedSource first count text := by
  rw [exchange_frame]
  exact s.exchangeFilled_source first count text

theorem Covers.exists_parted (h : s.Covers lines ls) (hrest : s.point.rest = []) {first count : Nat}
    (hcount : first + count ≤ s.tokens.size) :
    ∃ ts us vs as bs cs, ts.length = first ∧ us.length = count ∧ ls = as ++ bs ++ cs ∧
      s.Parted lines ts us vs as bs cs := by
  have hlength := h.length
  have hsource := h.source
  rw [hrest, List.append_nil] at hsource
  rw [← Array.length_toList] at hcount
  obtain ⟨ts, us, vs, htokens, rfl, hus⟩ := exists_thirds _ (Nat.le_add_right first count) hcount
  rw [hlength] at hcount
  obtain ⟨as, bs, cs, rfl, has, hbs⟩ := exists_thirds _ (Nat.le_add_right ts.length count) hcount
  rw [Nat.add_sub_cancel_left] at hus hbs
  subst hus
  exact ⟨ts, us, vs, as, bs, cs, rfl, rfl, rfl, h.parted hsource htokens has.symm hbs.symm⟩

theorem Covers.exchange (h : s.Covers lines ls) (hrest : s.point.rest = []) (hnumbered : s.Numbered)
    {first count : Nat} (hcount : first + count ≤ s.tokens.size) (text : Text)
    (hfits : Text.Fits lines (s.exchange first count text).2.source) :
    ∃ ms, (s.exchange first count text).2.Covers lines ms := by
  have hsource := h.source
  rw [hrest, List.append_nil] at hsource
  obtain ⟨ts, us, vs, as, bs, cs, rfl, rfl, rfl, hparted⟩ := h.exists_parted hrest hcount
  obtain ⟨hts, hus, -⟩ := hparted.lengths
  rw [source_exchange, hparted.exchangedSource] at hfits
  obtain ⟨ms, ds, es, rfl, hcuts, hlays, hrest', hsource', -⟩ :=
    lays_exchange text h.toLays hsource hnumbered hparted.tokens hts hus hfits
  refine ⟨as ++ ms ++ es, hlays, ?_, fun l hl => ?_⟩
  · rw [hsource', hrest', List.append_nil]
  · rcases List.mem_append.mp hl with hl | hl
    · rcases List.mem_append.mp hl with hl | hl
      · exact h.cut l (List.mem_append_left _ (List.mem_append_left _ hl))
      · exact hcuts.exists_leading l hl
    · exact h.cut l (List.mem_append_right _ (List.mem_append_right _ hl))

theorem Covers.mutate (h : s.Covers lines ls) (hnumbered : s.Numbered) (first count : Nat)
    (text : Text)
    (hfits : Text.Fits lines (s.mutate first count text).2.source) :
    ∃ ms, (s.mutate first count text).2.Covers lines ms := by
  obtain ⟨ms, hms, hrest⟩ := h.readAllMuted
  have hnumbered' := (follows_readAllMuted hnumbered).numbered
  have hsilent : Covers lines { s.readAllMuted with
      reporter := s.readAllMuted.reporter.emptySink } ms :=
    ⟨hms.toLays.congr rfl rfl rfl rfl, hms.source, hms.cut⟩
  unfold TokenStream.mutate at hfits ⊢
  cases hempty : s.readAllMuted.tokens.isEmpty with
  | true =>
    simp only [hempty, if_true]
    exact hsilent.restart (Array.isEmpty_iff.mp hempty) text
  | false =>
    simp only [hempty, Bool.false_eq_true, if_false] at hfits ⊢
    exact hsilent.exchange hrest (hnumbered'.congr rfl rfl) (by dsimp only; omega) text hfits

theorem Covers.edit (h : s.Covers lines ls) (hnumbered : s.Numbered) {start count : Nat}
    {inserted : Text} {m : Mutation} {s' : TokenStream}
    (hedit : s.edit start count inserted = .ok m s') (hfits : Text.Fits lines s'.source) :
    ∃ ms, s'.Covers lines ms := by
  obtain ⟨first, number, text, hmutate⟩ := exists_mutation_of_edit hedit
  obtain ⟨-, rfl⟩ := Prod.mk.inj hmutate
  obtain ⟨ms, hms, -⟩ := h.readAllMuted
  exact hms.mutate (follows_readAllMuted hnumbered).numbered first number text hfits

theorem exists_of_sights {t : Timeline} {ts : List Token} {before : Text}
    (h : ts.map (t.sight lines) = sights lines before ls) {i : Nat} {token : Token}
    (ht : ts[i]? = some token) :
    ∃ as l bs, ls = as ++ l :: bs ∧ as.length = i ∧
      t.sight lines token =
        (l.kind, l.text, some ((Placement.behind (before ++ joined as) l.text).seen lines)) := by
  induction ls generalizing ts before i with
  | nil =>
    rw [List.map_eq_nil_iff.mp h] at ht
    cases ht
  | cons l ls ih =>
    obtain ⟨first, rest, rfl, hfirst, hrest⟩ := List.map_eq_cons_iff.mp h
    cases i with
    | zero =>
      obtain rfl : first = token := Option.some.inj ht
      refine ⟨[], l, ls, rfl, rfl, ?_⟩
      rw [Lexeme.joined_nil, List.append_nil]
      exact hfirst
    | succ i =>
      obtain ⟨as, m, bs, rfl, rfl, hsight⟩ := ih hrest ht
      refine ⟨l :: as, m, bs, rfl, rfl, ?_⟩
      rw [hsight, Lexeme.joined_cons, List.append_assoc]

theorem texts_of_sights {t : Timeline} {ts : List Token} {before : Text}
    (h : ts.map (t.sight lines) = sights lines before ls) : ts.flatMap Token.text = joined ls := by
  have htexts := congrArg (List.flatMap fun x => x.2.1) h
  rw [List.flatMap_map, sights, List.flatMap_map] at htexts
  rw [← Lexeme.map_snd_spread before ls, joined, List.flatMap_map]
  exact htexts

theorem faultReports_eq {t : Timeline} {ts : List Token} {before : Text}
    (h : ts.map (t.sight lines) = sights lines before ls)
    (hcut : ∀ l ∈ ls, ∃ c cs, l = Lexeme.leading c cs) :
    faultReports ts ls = ts.filterMap fun token => token.faultReport? token.fault? := by
  induction ls generalizing ts before with
  | nil =>
    rw [List.map_eq_nil_iff.mp h]
    rfl
  | cons l ls ih =>
    obtain ⟨token, rest, rfl, htoken, hrest⟩ := List.map_eq_cons_iff.mp h
    obtain ⟨c, cs, rfl⟩ := hcut l List.mem_cons_self
    have hfault := Token.fault?_of_leading (congrArg (fun x => x.2.1) htoken)
    have htail := ih hrest fun m hm => hcut m (List.mem_cons_of_mem _ hm)
    rw [List.filterMap_cons, hfault, ← htail]
    rfl

namespace Covers

variable (h : s.Covers lines ls)
include h

theorem texts : s.tokens.toList.flatMap Token.text = joined ls := texts_of_sights h.sights

theorem covered (hrest : s.point.rest = []) : s.tokens.toList.flatMap Token.text = s.source := by
  rw [h.texts, h.source, hrest, List.append_nil]

theorem split {i : Nat} {t : Token} (ht : s.tokens[i]? = some t) :
    ∃ as l bs, ls = as ++ l :: bs ∧ as.length = i ∧ s.timeline.sight lines t =
      (l.kind, l.text, some ((Placement.behind (joined as) l.text).seen lines)) :=
  exists_of_sights h.sights (Array.getElem?_toList.trans ht)

theorem location_behind {front back : List Token} {t : Token}
    (ht : s.tokens.toList = front ++ t :: back) :
    (s.location t).seen lines =
      ((Placement.behind (front.flatMap Token.text) t.text).location t.size).seen lines := by
  have hsights := h.sights
  rw [ht] at hsights
  obtain ⟨as, bs, rfl, hfront, hback⟩ : ∃ as bs, ls = as ++ bs ∧
      front.map (s.timeline.sight lines) = sights lines [] as ∧
      (t :: back).map (s.timeline.sight lines) = sights lines (joined as) bs := by
    have hlength := h.length
    rw [ht, List.length_append] at hlength
    refine ⟨ls.take front.length, ls.drop front.length, (List.take_append_drop ..).symm, ?_⟩
    rw [← List.take_append_drop front.length ls, List.map_append, Lexeme.sights_append] at hsights
    refine List.append_inj hsights ?_
    rw [List.length_map, Lexeme.length_sights, List.length_take]
    omega
  cases bs with
  | nil => cases hback
  | cons l bs =>
    have hsight := (List.cons.inj hback).1
    have htext : t.text = l.text := congrArg (fun x => x.2.1) hsight
    have hlocation := location_of_sight hsight
    rw [texts_of_sights hfront, Token.size, htext]
    exact hlocation

theorem start {t : Token} (ht : s.tokens[0]? = some t) : (s.location t).span.start = 0 := by
  obtain ⟨as, l, bs, -, has, hsight⟩ := h.split ht
  have hstart := (start_of_sight hsight).offset
  rwa [List.length_eq_zero_iff.mp has] at hstart

theorem abuts {i : Nat} {t u : Token} (ht : s.tokens[i]? = some t)
    (hu : s.tokens[i + 1]? = some u) : (s.location u).span.start = (s.location t).span.stop := by
  obtain ⟨as, l, bs, hls, has, hsight⟩ := h.split ht
  obtain ⟨as', l', bs', hls', has', hsight'⟩ := h.split hu
  rw [hls, List.append_cons] at hls'
  have hbefore : as ++ [l] = as' :=
    (List.append_inj hls' (by rw [List.length_append, has, has']; rfl)).1
  have hstop := (stop_of_sight hsight).offset
  have hstart := (start_of_sight hsight').offset
  rw [← hbefore, Lexeme.joined_append, Lexeme.joined_cons, Lexeme.joined_nil,
    List.append_nil] at hstart
  exact hstart.trans hstop.symm

theorem range (hlines : lines = true) {t : Token} (ht : t ∈ s.tokens) : (s.location t).range =
    ⟨Position.origin.advance (Text.takeBytes (s.location t).span.start s.source),
      Position.origin.advance (Text.takeBytes (s.location t).span.stop s.source)⟩ := by
  obtain ⟨i, hi⟩ := Array.mem_iff_getElem?.mp ht
  obtain ⟨as, l, bs, rfl, -, hsight⟩ := h.split hi
  have hsource : s.source = joined as ++ (l.text ++ (joined bs ++ s.point.rest)) := by
    rw [h.source, Lexeme.joined_append, Lexeme.joined_cons]
    simp only [List.append_assoc]
  have hbefore : Text.takeBytes (Text.size (joined as)) s.source = joined as :=
    hsource ▸ Text.takeBytes_size_append ..
  have hthrough : Text.takeBytes (Text.size (joined as ++ l.text)) s.source =
      joined as ++ l.text := by
    rw [hsource, ← List.append_assoc]
    exact Text.takeBytes_size_append ..
  have hstart := start_of_sight hsight
  have hstop := stop_of_sight hsight
  rw [← hstart.offset] at hbefore
  rw [← hstop.offset] at hthrough
  have hstart := hstart.position hlines
  have hstop := hstop.position hlines
  rw [location, hbefore, hthrough, ← hstart, ← hstop]

theorem tiled (hnumbered : s.Numbered) : s.Tiled lines where
  nonempty t ht := by
    obtain ⟨i, hi⟩ := Array.mem_iff_getElem?.mp ht
    obtain ⟨as, l, bs, -, -, hsight⟩ := h.split hi
    have htext : t.text = l.text := congrArg (fun x => x.2.1) hsight
    rw [htext, Lexeme.text]
    exact List.cons_ne_nil l.first l.rest
  starts _ := h.start
  abuts _ _ _ := h.abuts
  scanned := by
    rw [h.texts, h.source, h.point.offset]
    exact (Text.takeBytes_size_append ..).symm
  complete hcomplete := h.covered (List.isEmpty_iff.mp hcomplete)
  range hlines _ := h.range hlines
  numbered := hnumbered
  diagnostics := by
    rw [diagnostics, Reporter.diagnostics, h.reports, faultReports_eq h.sights h.cut,
      List.map_filterMap]
    refine List.filterMap_congr fun t _ => ?_
    cases t.fault? <;> rfl

end Covers

end TokenStream

def SessionOp.isChange : SessionOp → Bool
  | .edit .. | .mutate .. => true
  | _ => false

namespace Session

variable {lines : Bool} {s : Session} {ls : List Lexeme}

theorem covers_apply (h : s.Valid) (hcovers : s.stream.Covers lines ls) (op : SessionOp)
    (hfits : op.isChange = true → Text.Fits lines (s.apply op).stream.source) :
    ∃ ms, (s.apply op).stream.Covers lines ms := by
  cases op with
  | readNext => exact hcovers.read
  | readTo i =>
    obtain ⟨ms, hms, -⟩ := hcovers.readMore (i + 1 - s.stream.tokens.size)
    exact ⟨ms, hms⟩
  | readAll =>
    obtain ⟨ms, hms, -⟩ := hcovers.readAll
    exact ⟨ms, hms⟩
  | edit start count inserted =>
    have hfits := hfits rfl
    simp only [Session.apply] at hfits ⊢
    cases hedit : s.stream.edit start count inserted with
    | error e s' =>
      rw [(TokenStream.edit_refused hedit).2]
      exact ⟨ls, hcovers⟩
    | ok m s' =>
      rw [hedit] at hfits
      exact hcovers.edit h.numbered hedit hfits
  | mutate first count text => exact hcovers.mutate h.numbered first count text (hfits rfl)
  | parse =>
    obtain ⟨ms, hms, -⟩ := hcovers.readAll
    exact ⟨ms, hms⟩
  | evict key => exact ⟨ls, hcovers⟩
  | forget tokens => exact ⟨ls, hcovers⟩
  | clear => exact ⟨ls, hcovers⟩

theorem covers_run (h : s.Valid) (hcovers : s.stream.Covers lines ls) (ops : List SessionOp)
    (hfits : ∀ done op, done ++ [op] <+: ops → op.isChange = true →
      Text.Fits lines (s.run (done ++ [op])).stream.source) :
    ∃ ms, (s.run ops).stream.Covers lines ms := by
  induction ops generalizing s ls with
  | nil => exact ⟨ls, hcovers⟩
  | cons op ops ih =>
    obtain ⟨ms, hms⟩ :=
      covers_apply h hcovers op (hfits [] op (List.cons_prefix_cons.mpr ⟨rfl, List.nil_prefix⟩))
    exact ih (h.apply op) hms fun done op' hdone =>
      hfits (op :: done) op' (List.cons_prefix_cons.mpr ⟨rfl, hdone⟩)

theorem addressable_of_take {source : Text} {ops : List SessionOp}
    (h : ∀ n < ops.length + 1,
      Text.size ((ofSource source).run (ops.take n)).stream.source < maxCoordinate) :
    ∀ done, done <+: ops → Text.Addressable ((ofSource source).run done).stream.source := by
  intro done hdone
  have hlt := h done.length (Nat.lt_succ_of_le hdone.length_le)
  rw [← List.prefix_iff_eq_take.mp hdone] at hlt
  exact (Text.addressable_iff _).mpr ⟨Nat.le_of_lt hlt, Text.ne_feeds_of_size_lt hlt⟩

/-- Reading, editing, exchanging tokens anywhere and parsing in any order keeps the tokens of a
stream laid over its source, as long as the offsets of every text it comes to are 32-bit numbers. If
their lines are so too, every token knows its lines and columns. -/
theorem tiled_run (lines : Bool) (source : Text) (ops : List SessionOp)
    (hfits : ∀ done, done <+: ops → Text.Fits lines ((ofSource source).run done).stream.source) :
    ((ofSource source).run ops).stream.Tiled lines := by
  have hvalid := valid_ofSource source
  obtain ⟨ms, hms⟩ := covers_run hvalid (TokenStream.covers_ofSource lines source) ops
    fun done op hdone _ => hfits (done ++ [op]) hdone
  exact hms.tiled (hvalid.run ops).numbered

theorem tiled_run_glued :
    ((ofSource ['a', ' ', 'b']).run
      [.readNext, .mutate 1 1 [], .mutate 0 0 ['"']]).stream.Tiled true :=
  tiled_run true ['a', ' ', 'b'] [.readNext, .mutate 1 1 [], .mutate 0 0 ['"']]
    fun done hdone => (addressable_of_take (by decide +kernel) done hdone).fits true

theorem exists_heldBack_run {n : Nat} (hn : n + 1 = maxCoordinate) :
    ∃ last, ((ofSource (List.replicate n '\n')).run
      [.edit 0 0 ['\n'], .edit 0 n ['l', 'e', 't']]).stream.HeldBack last := by
  obtain ⟨m, r, m', r', last, hfeed, hword, hheld⟩ := TokenStream.exists_heldBack hn
  have hstart : (ofSource (List.replicate n '\n')).stream = .ofSource (List.replicate n '\n') := rfl
  have hrun : ((ofSource (List.replicate n '\n')).run
      [.edit 0 0 ['\n'], .edit 0 n ['l', 'e', 't']]).stream = r' := by
    simp only [run, List.foldl_cons, List.foldl_nil, Session.apply, hstart, hfeed, hword]
  exact ⟨last, hrun.symm ▸ hheld⟩

theorem exists_stop_ne_of_feeds {n : Nat} (hn : n + 1 = maxCoordinate) :
    let s := ((ofSource (List.replicate n '\n')).run
      [.edit 0 0 ['\n'], .edit 0 n ['l', 'e', 't']]).stream
    ∃ t ∈ s.tokens, (s.location t).range.stop ≠
      Position.origin.advance (Text.takeBytes (s.location t).span.stop s.source) := by
  intro s
  obtain ⟨last, hheld⟩ := exists_heldBack_run hn
  obtain ⟨i, htokens, -, -, hspan⟩ := hheld.parts
  refine ⟨last, Array.mem_toList_iff.mp ?_, fun hstop => ?_⟩
  · rw [htokens]
    exact List.mem_cons_of_mem _ List.mem_cons_self
  · have hline := hheld.held
    rw [hstop, hspan, hheld.source] at hline
    exact absurd hline (by decide)

/-- The text of 2³² - 1 line feeds comes between two shorter ones. After that the last token ends on
another line than its text. -/
theorem exists_stop_ne_feeds :
    let s := ((ofSource (List.replicate 4294967294 '\n')).run
      [.edit 0 0 ['\n'], .edit 0 4294967294 ['l', 'e', 't']]).stream
    ∃ t ∈ s.tokens, (s.location t).range.stop ≠
      Position.origin.advance (Text.takeBytes (s.location t).span.stop s.source) :=
  exists_stop_ne_of_feeds rfl

end Session

end Reparse
