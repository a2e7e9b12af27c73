import Reparse.Proofs.ExactShifts
import Reparse.Proofs.TokenStream.Widening

/-!
# Streams of line feeds

One text has 32-bit offsets and more lines than there are 32-bit numbers: the longest one, if it is
line feeds throughout. A stream comes to it if a line feed is typed before all but one of them. The
last line feed is held back then on the line before its own, and from there it moves on with every
later edit. It is still one line behind when almost all of the line feeds are exchanged for a word.
-/

namespace Reparse

open Lexeme (Cuts joined sights)

namespace Lexeme

def lineFeed : Lexeme := { kind := .newline, first := '\n', rest := [] }

theorem joined_feeds (n : Nat) : joined (List.replicate n lineFeed) = List.replicate n '\n' := by
  induction n with
  | zero => rfl
  | succ n ih =>
    rw [List.replicate_succ, joined_cons, ih]
    rfl

theorem Cuts.feeds (n : Nat) : Cuts (List.replicate n '\n') (List.replicate n lineFeed) [] := by
  induction n with
  | zero => exact .nil []
  | succ n ih =>
    have hcons : Cuts ('\n' :: List.replicate n '\n')
        (leading '\n' (List.replicate n '\n') :: List.replicate n lineFeed) [] := .cons ih
    exact hcons

theorem all_feeds (n : Nat) : all (List.replicate n '\n') = List.replicate n lineFeed :=
  (Cuts.all _).unique (.feeds n)

end Lexeme

theorem Survivor.rescan_once {p : ReadPoint} {x y : Char} {xs ys : Text} {o : Survivor}
    {olds : List Survivor} {fuel : Nat} (hfuel : 2 ≤ fuel) (hrest : p.rest = x :: xs)
    (hnext : xs.drop (Lexeme.leading x xs).rest.length = y :: ys)
    (hstart : o.start = ((p.offset + (Lexeme.leading x xs).size : Nat) : Int))
    (hkind : o.token.kind = (Lexeme.leading y ys).kind)
    (htext : o.token.text = (Lexeme.leading y ys).text) :
    rescan fuel p (o :: olds) =
      ([⟨p, Lexeme.leading x xs⟩], (o :: olds).map Survivor.token) := by
  obtain ⟨fuel, rfl⟩ := Nat.exists_eq_add_of_le' hfuel
  have hsize := (Lexeme.leading x xs).size_pos
  have hhere : ¬o.start < (p.offset : Int) := by omega
  have hbehind : o.matchesLexeme p (Lexeme.leading x xs) = false := by
    have hne : ¬o.start = (p.offset : Int) := by omega
    simp only [matchesLexeme, hne, decide_false, Bool.false_and]
  have hcut := ReadPoint.cut?_of_cons hrest
  have hcut' := ReadPoint.cut?_of_cons (p := ⟨p.offset + (Lexeme.leading x xs).size,
    p.position.advance (Lexeme.leading x xs).text, xs.drop (Lexeme.leading x xs).rest.length⟩) hnext
  have hmet : o.matchesLexeme ⟨p.offset + (Lexeme.leading x xs).size,
      p.position.advance (Lexeme.leading x xs).text,
      xs.drop (Lexeme.leading x xs).rest.length⟩ (Lexeme.leading y ys) = true := by
    simp only [matchesLexeme, hstart, hkind, htext, decide_true, Bool.and_true]
  have hthere : ¬o.start < ((p.offset + (Lexeme.leading x xs).size : Nat) : Int) := by omega
  simp only [rescan, hcut, hcut', List.dropWhile_cons, decide_eq_true_eq, hhere, hthere, if_false,
    hbehind, hmet, Bool.false_eq_true, if_true]

namespace TokenStream

variable {lines : Bool} {s : TokenStream} {ls as bs cs : List Lexeme} {ts us vs : List Token}

theorem Parted.rescanned_once {v : Token} {c : Lexeme}
    (h : s.Parted lines ts us (v :: vs) as bs (c :: cs)) {x y : Char} {xs ys : Text}
    (hnew : (Lexeme.leading x (xs ++ joined (c :: cs))).text = x :: xs)
    (hold : joined (c :: cs) = y :: ys) (hcut : Lexeme.leading y ys = c) :
    s.rescanned ts.length us.length (x :: xs) =
      ([⟨s.exchangePoint ts.length us.length (x :: xs),
        Lexeme.leading x (xs ++ joined (c :: cs))⟩], v :: vs) := by
  obtain ⟨hstarts, htokens⟩ := h.survivors (x :: xs)
  have hrest := h.rest_exchangePoint (x :: xs)
  have hsight := (List.cons.inj h.third).1
  unfold rescanned
  cases hsurvivors : s.survivors ts.length us.length (x :: xs) with
  | nil =>
    rw [hsurvivors] at htokens
    cases htokens
  | cons o olds =>
    rw [hsurvivors] at hstarts htokens
    have hstart := (List.cons.inj hstarts).1
    have hfuel : 2 ≤ (s.exchangePoint ts.length us.length (x :: xs)).rest.length := by
      rw [hrest, hold, List.length_append, List.length_cons, List.length_cons]
      omega
    have hoffset : (s.exchangePoint ts.length us.length (x :: xs)).offset =
        Text.size (joined as) := h.startOf.offset
    have hdrop : (xs ++ joined (c :: cs)).drop
        (Lexeme.leading x (xs ++ joined (c :: cs))).rest.length = y :: ys := by
      have hwhole := Lexeme.leading_text x (xs ++ joined (c :: cs))
      rw [hnew, ← List.cons_append] at hwhole
      exact (List.append_cancel_left hwhole).trans hold
    have htoken : o.token = v := (List.cons.inj htokens).1
    have hplace : o.start = (((s.exchangePoint ts.length us.length (x :: xs)).offset +
        (Lexeme.leading x (xs ++ joined (c :: cs))).size : Nat) : Int) := by
      rw [hstart, hoffset, Lexeme.size, hnew, ← Text.size_append]
    have hkind : o.token.kind = (Lexeme.leading y ys).kind := by
      rw [htoken, hcut]
      exact congrArg Prod.fst hsight
    have hword : o.token.text = (Lexeme.leading y ys).text := by
      rw [htoken, hcut]
      exact congrArg (fun z => z.2.1) hsight
    rw [Survivor.rescan_once hfuel hrest hdrop hplace hkind hword, htokens]
    rfl

theorem Lays.countStarts_eq (h : s.Lays lines (as ++ bs)) :
    s.countStarts (· < Text.size (joined as)) = as.length := by
  obtain ⟨cs, ds, hls, hlength, hbefore, hbehind⟩ :=
    takeWhile_starts (fun n => decide (n < Text.size (joined as))) h.sights
  have hcount : s.countStarts (· < Text.size (joined as)) = cs.length := hlength
  have hpart := List.append_eq_append_iff.mp hls
  rw [hcount]
  rcases hpart with ⟨es, rfl, rfl⟩ | ⟨es, rfl, rfl⟩
  · -- No lexeme behind `as` starts before their end.
    rcases List.eq_nil_or_concat es with rfl | ⟨es, l, rfl⟩
    · rw [List.append_nil]
    · rw [List.concat_eq_append, ← List.append_assoc] at hbefore
      have hlt := of_decide_eq_true (hbefore (as ++ es) l [] rfl)
      rw [List.nil_append, Lexeme.joined_append, Text.size_append] at hlt
      omega
  · cases es with
    | nil => rw [List.append_nil]
    | cons l es =>
      have hle := Nat.not_lt.mp (of_decide_eq_false (hbehind l (es ++ bs) rfl))
      have hpos := l.size_pos
      rw [List.nil_append, Lexeme.joined_append, Lexeme.joined_cons, Text.size_append,
        Text.size_append] at hle
      rw [Lexeme.size] at hpos
      omega

theorem Lays.affected_front (h : s.Lays lines (bs ++ cs)) :
    s.affected 0 (Text.size (joined bs)) = (0, bs.length) := by
  have hnone : s.countStarts (· < Text.size (joined [])) = _ := Lays.countStarts_eq h
  have hle := (h.firstAffected_le (Nat.le_refl 0) (Nat.zero_le _)).2
  rw [Lexeme.joined_nil, Text.size_nil, List.length_nil] at hnone
  have hfirst := Nat.le_zero.mp (Nat.le_trans hle (Nat.le_of_eq hnone))
  rw [affected, hfirst, h.countStarts_eq]
  rfl

theorem Lays.region_front (h : s.Lays lines (bs ++ cs)) (htokens : s.tokens.toList = us ++ vs)
    (hus : us.length = bs.length) :
    s.Region [] (joined bs) (joined cs) [] us vs [] bs cs [] [] where
  tokens := htokens
  first := rfl
  second := hus
  affected := by
    rw [List.nil_append, Text.size_nil, h.affected_front, hus]
    rfl
  before_eq := rfl
  exchanged := (List.append_nil _).symm
  behind_eq := rfl

def prepared (s : TokenStream) : TokenStream :=
  { s.readAllMuted with reporter := s.readAllMuted.reporter.emptySink }

theorem Shows.prepared (h : s.Shows lines ls) :
    s.prepared.ShowsAll lines ∧ s.prepared.source = s.source := by
  obtain ⟨⟨hshows, hrest⟩, hsource⟩ := h.readAllMuted
  exact ⟨⟨⟨hshows.toLays.congr rfl rfl rfl rfl, hshows.cuts⟩, hrest⟩, hsource⟩

theorem numbered_prepared (h : s.Numbered) : s.prepared.Numbered :=
  (follows_readAllMuted h).numbered.congr rfl rfl

theorem checkEdit_front (hsource : s.source = joined bs ++ joined cs) {inserted : Text}
    (hsize : Text.size s.source ≤ maxCoordinate)
    (hnew : Text.size (inserted ++ joined cs) ≤ maxCoordinate) :
    runEnd 0 (Text.size (joined bs)) = Text.size (joined bs) ∧
      s.checkEdit 0 (Text.size (joined bs)) inserted = .ok () := by
  have hstart : Text.onBoundary 0 (joined bs ++ joined cs) = true :=
    Text.onBoundary_size_append [] (joined bs ++ joined cs)
  have hstop := Text.onBoundary_size_append (joined bs) (joined cs)
  rw [hsource, Text.size_append] at hsize
  rw [Text.size_append] at hnew
  have hend : runEnd 0 (Text.size (joined bs)) = Text.size (joined bs) := by
    unfold maxCoordinate at hsize
    unfold runEnd
    omega
  have hbounds : ¬Text.size (joined bs ++ joined cs) < Text.size (joined bs) := by
    rw [Text.size_append]
    omega
  have hfits : ¬maxCoordinate < Text.size (joined bs ++ joined cs) - Text.size (joined bs) +
      Text.size inserted := by
    rw [Text.size_append]
    omega
  refine ⟨hend, ?_⟩
  simp only [checkEdit, hsource, hend, hstart, hstop, if_neg hbounds, if_neg hfits,
    Bool.not_true, Bool.false_eq_true, if_false]

theorem Shows.edit_front (h : s.Shows lines ls) (hlexemes : Lexeme.all s.source = bs ++ cs)
    (htokens : s.prepared.tokens.toList = us ++ vs) (hus : us.length = bs.length)
    (hnonempty : s.prepared.tokens.toList ≠ []) (inserted : Text)
    (hsize : Text.size s.source ≤ maxCoordinate)
    (hnew : Text.size (inserted ++ joined cs) ≤ maxCoordinate) :
    s.prepared.Parted lines [] us vs [] bs cs ∧
      ∃ m, s.edit 0 (Text.size (joined bs)) inserted =
        .ok m (s.prepared.exchange 0 us.length inserted).2 := by
  obtain ⟨hread, hsame⟩ := h.readAllMuted
  obtain ⟨hready, hsame'⟩ := h.prepared
  have hlexemes' : Lexeme.all s.readAllMuted.source = [] ++ bs ++ cs := hsame ▸ hlexemes
  have hparted : s.readAllMuted.Parted lines [] us vs [] bs cs :=
    hread.parted htokens hlexemes' rfl hus
  have hlays : s.readAllMuted.Lays lines (bs ++ cs) := (hread.lays hlexemes').1
  have hregion := hlays.region_front htokens hus
  obtain ⟨hend, hcheck⟩ := checkEdit_front (hsame.symm.trans hparted.source) hsize hnew
  have hsome : s.readAllMuted.tokens.isEmpty = false := by
    rw [← Array.isEmpty_toList]
    exact List.isEmpty_eq_false_iff.mpr hnonempty
  have hcount : ([] : List Token).length + us.length ≤ s.readAllMuted.tokens.size := by
    rw [hregion.size_eq]
    exact Nat.le_add_right ..
  have hmutation := hregion.widenedMutation hparted hparted.source hsome inserted
  rw [List.nil_append, List.nil_append, List.append_nil, Text.size_nil,
    mutate_of_nonempty hread.2 hsome hcount] at hmutation
  have hedit := edit_of_ok hcheck
  rw [hend, hmutation] at hedit
  exact ⟨hready.parted htokens (hsame' ▸ hlexemes) rfl hus, _, hedit⟩

theorem Parted.exchange_once {v : Token} {c : Lexeme}
    (h : s.Parted lines ts us (v :: vs) as bs (c :: cs)) (hnumbered : s.Numbered) (first count : Nat)
    (hfirst : ts.length = first) (hcount : us.length = count) (x : Char) (xs : Text) {y : Char}
    {ys : Text} (hnew : (Lexeme.leading x (xs ++ joined (c :: cs))).text = x :: xs)
    (hold : joined (c :: cs) = y :: ys) (hcut : Lexeme.leading y ys = c) :
    ∃ t, (s.exchange first count (x :: xs)).2.tokens.toList = ts ++ t :: v :: vs ∧
      (s.exchange first count (x :: xs)).2.timeline.sight lines t =
        ((Lexeme.leading x (xs ++ joined (c :: cs))).kind, x :: xs,
          some ((Placement.behind (joined as) (x :: xs)).seen lines)) ∧
      ∀ u ∈ ts ++ v :: vs, (s.exchange first count (x :: xs)).2.timeline.live? u.id =
        (s.timeline.live? u.id).map (s.exchangeShift first count (x :: xs)).move := by
  subst hfirst hcount
  have hrescanned := h.rescanned_once hnew hold hcut
  have hkept : (s.rescanned ts.length us.length (x :: xs)).2 = v :: vs := by rw [hrescanned]
  have htokens := s.exchange_tokens ts.length us.length (x :: xs)
  have hmade : ((s.exchangeMade ts.length us.length (x :: xs)).1.map Prod.fst).map
      ((s.exchangeMade ts.length us.length (x :: xs)).2.timeline.sight lines) = _ :=
    s.sight_exchangeMade ts.length us.length (x :: xs)
  rw [hkept, h.take_tokens] at htokens
  rw [hrescanned] at hmade
  obtain ⟨t, rest, hfresh, ht, hrest⟩ := List.map_eq_cons_iff.mp hmade
  rw [hfresh, List.map_eq_nil_iff.mp hrest] at htokens
  have hplace : FoundLexeme.sight lines ⟨s.exchangePoint ts.length us.length (x :: xs),
      Lexeme.leading x (xs ++ joined (c :: cs))⟩ =
        ((Lexeme.leading x (xs ++ joined (c :: cs))).kind, x :: xs,
          some ((Placement.behind (joined as) (x :: xs)).seen lines)) := by
    rw [FoundLexeme.sight, FoundLexeme.placement, hnew, ← h.startOf.placement]
    rfl
  have hstays : ∀ u ∈ ts ++ v :: vs, u ∈ s.tokens.toList ∧ ∀ r ∈ us, r.id ≠ u.id := by
    intro u hu
    obtain ⟨hfront, hback⟩ := h.distinct hnumbered
    rw [h.tokens]
    rcases List.mem_append.mp hu with hu | hu
    · exact ⟨List.mem_append_left _ (List.mem_append_left _ hu), hfront u hu⟩
    · exact ⟨List.mem_append_right _ hu, hback u hu⟩
  refine ⟨t, ?_, ?_, fun u hu => ?_⟩
  · rw [htokens, List.append_assoc]
    rfl
  · rw [timeline_exchange, ht, hplace]
  · obtain ⟨hmem, hdistinct⟩ := hstays u hu
    rw [← h.removed us.length (x :: xs) hkept] at hdistinct
    rw [timeline_exchange]
    exact live_exchangeMade h.inStep (hnumbered.lt_next u hmem) hdistinct

theorem Parted.exchange_feed {n : Nat} {v : Token}
    (h : s.Parted true [] [] (v :: vs) [] [] (List.replicate (n + 1) Lexeme.lineFeed))
    (hnumbered : s.Numbered) (hn : n + 2 ≤ maxCoordinate) :
    ∃ front last, (s.exchange 0 0 ['\n']).2.tokens.toList = front ++ [last] ∧
      front.map ((s.exchange 0 0 ['\n']).2.timeline.sight true) =
        sights true [] (List.replicate (n + 1) Lexeme.lineFeed) ∧
      ∃ p, (s.exchange 0 0 ['\n']).2.timeline.live? last.id = some p ∧
        p.endPos.line ≤ maxCoordinate := by
  have hjoined : joined (List.replicate (n + 1) Lexeme.lineFeed) =
      '\n' :: List.replicate n '\n' := Lexeme.joined_feeds (n + 1)
  obtain ⟨t, htokens, ht, hmoved⟩ :=
    h.exchange_once hnumbered 0 0 rfl rfl '\n' [] rfl hjoined rfl
  have hthird := h.third
  rw [List.replicate_succ', Lexeme.sights_append] at hthird
  obtain ⟨front, back, hold, hfront, hback⟩ := List.map_eq_append_iff.mp hthird
  obtain ⟨last, rest, rfl, hlast, hrest⟩ := List.map_eq_cons_iff.mp hback
  rw [List.map_eq_nil_iff.mp hrest] at hold
  rw [hold] at htokens hmoved
  refine ⟨t :: front, last, htokens, ?_, ?_⟩
  · have hfits : Text.Fits true
        ([] ++ ['\n'] ++ [] ++ joined (List.replicate n Lexeme.lineFeed)) := by
      rw [Lexeme.joined_feeds]
      exact Text.fits_feeds true (Nat.lt_of_succ_le hn)
    have hbehind : (sights true ([] ++ [] ++ []) (List.replicate n Lexeme.lineFeed)).map
        ((Shift.between [] [] ['\n']).moveSight true) = _ := sights_behind hfits
    have hkept : front.map ((s.exchange 0 0 ['\n']).2.timeline.sight true) =
        (front.map (s.timeline.sight true)).map ((s.exchangeShift 0 0 ['\n']).moveSight true) :=
      sights_of_moved fun u hu =>
        hmoved u (List.mem_append_right _ (List.mem_append_left _ hu))
    have hmove : (s.exchangeShift 0 0 ['\n']).moveSight true =
        (Shift.between [] [] ['\n']).moveSight true :=
      Shift.moveSight_of_seen (h.exchangeShift ['\n'])
    have hfront : front.map (s.timeline.sight true) =
        sights true ([] ++ [] ++ []) (List.replicate n Lexeme.lineFeed) := hfront
    rw [hmove, hfront, hbehind] at hkept
    rw [List.replicate_succ, Lexeme.sights_cons, List.map_cons, hkept, ht]
    rfl
  · obtain ⟨p, hp⟩ := exists_live hback last List.mem_cons_self
    have hlive := hmoved last (List.mem_append_right _ (List.mem_append_right _ List.mem_cons_self))
    have haffects : (s.exchangeShift 0 0 ['\n']).affects p.start := by
      have hstop : (s.endOf 0 0).1 = 0 := h.endOf.offset
      have hzero : (s.exchangeShift 0 0 ['\n']).bytePos = 0 := hstop
      rw [Shift.affects, hzero]
      exact decide_eq_true (Nat.zero_le _)
    rw [hp, Option.map_some] at hlive
    exact ⟨_, hlive, Shift.line_move_le _ haffects⟩

theorem numbered_ofSource (source : Text) : (ofSource source).Numbered :=
  ⟨List.nodup_nil, fun _ ht => absurd ht List.not_mem_nil⟩

/-- A stream over `n + 1` line feeds, which has `last` as the last one. The others know their places.
The last one ends on some line with a 32-bit number. -/
structure Crowded (n : Nat) (front : List Token) (last : Token) (s : TokenStream) : Prop where
  numbered : s.Numbered
  shows : s.ShowsAll false
  source : s.source = List.replicate (n + 1) '\n'
  tokens : s.tokens.toList = front ++ [last]
  places : front.map (s.timeline.sight true) = sights true [] (List.replicate n Lexeme.lineFeed)
  held : ∃ p, s.timeline.live? last.id = some p ∧ p.endPos.line ≤ maxCoordinate

theorem edit_feed {n : Nat} (h : ∀ lines, s.Shows lines ls) (hnumbered : s.Numbered)
    (hsource : s.source = List.replicate (n + 1) '\n') (hn : n + 2 ≤ maxCoordinate) :
    ∃ m s' front last, s.edit 0 0 ['\n'] = .ok m s' ∧ s'.Crowded (n + 1) front last := by
  have hlexemes : Lexeme.all s.source = [] ++ List.replicate (n + 1) Lexeme.lineFeed := by
    rw [hsource]
    exact Lexeme.all_feeds (n + 1)
  have hsize : Text.size s.source ≤ maxCoordinate := by
    rw [hsource, Text.size_feeds]
    exact Nat.le_of_succ_le hn
  have hnew : Text.size (List.replicate (n + 2) '\n') ≤ maxCoordinate := by
    rwa [Text.size_feeds]
  have hsplice : Text.splice 0 (runEnd 0 0) ['\n'] s.source = List.replicate (n + 2) '\n' := by
    rw [hsource]
    exact Text.splice_append [] [] _ _
  have hlength : s.prepared.tokens.toList.length = n + 1 := by
    obtain ⟨hready, hsame⟩ := (h true).prepared
    rw [hready.1.length, hsame, hlexemes, List.nil_append, List.length_replicate]
  cases htokens : s.prepared.tokens.toList with
  | nil =>
    rw [htokens] at hlength
    cases hlength
  | cons v vs =>
    have hjoined := Lexeme.joined_feeds (n + 1)
    have hfront : s.prepared.tokens.toList = [] ++ v :: vs := htokens
    obtain ⟨hparted, m, hedit⟩ := (h true).edit_front hlexemes hfront rfl (by simp [htokens])
      ['\n'] hsize (by rwa [hjoined])
    obtain ⟨front, last, hfront, hplaces, hheld⟩ :=
      hparted.exchange_feed (numbered_prepared hnumbered) hn
    obtain ⟨hall, hsource'⟩ := shows_edit (h false) hnumbered hsize
      (Text.fits_of_size (hsplice.symm ▸ hnew)) hedit
    exact ⟨m, _, front, last, hedit, (follows_edit hnumbered hedit).numbered, hall,
      hsource'.trans hsplice, hfront, hplaces, hheld⟩

/-- A stream over a word and a line feed, with `last` as the token of the line feed. It has this token
end on the first line. -/
structure HeldBack (last : Token) (s : TokenStream) : Prop where
  numbered : s.Numbered
  shows : s.ShowsAll false
  source : s.source = ['l', 'e', 't', '\n']
  tokens : s.tokens.back? = some last
  held : (s.location last).range.stop.line ≤ 1

theorem lineOffset_word {n : Nat} {front : List Token} (htokens : s.tokens.toList = [] ++ front ++ vs)
    (hplaces : front.map (s.timeline.sight true) =
      sights true [] (List.replicate (n + 1) Lexeme.lineFeed)) :
    (s.exchangeShift 0 front.length ['l', 'e', 't']).lineOffset = -(n + 1) := by
  have hfirst : front.map (s.timeline.sight true) =
      sights true [] (Lexeme.lineFeed :: List.replicate n Lexeme.lineFeed) := by
    rw [hplaces, List.replicate_succ]
  have hlast : front.map (s.timeline.sight true) =
      sights true [] (List.replicate n Lexeme.lineFeed ++ [Lexeme.lineFeed]) := by
    rw [hplaces, List.replicate_succ']
  have hstart : (s.startOf 0).2 = .origin := (startOf_of_sights htokens hfirst).position rfl
  have hstop : (s.endOf 0 front.length).2 = _ := (endOf_of_sights htokens hlast).position rfl
  have hword : (Position.origin.advance ['l', 'e', 't']).line = 1 := by decide
  have hline : (Position.origin.advance (List.replicate (n + 1) '\n')).line = n + 2 := by
    rw [Position.line_advance, List.count_replicate_self]
    exact Nat.add_comm 1 (n + 1)
  rw [List.nil_append, ← List.replicate_succ', Lexeme.joined_feeds] at hstop
  rw [exchangeShift, Shift.ofReplacement]
  dsimp only
  rw [hstart, hstop, hword, hline]
  omega

theorem Parted.line_behind_word {n : Nat} {front : List Token} {last : Token} {p : Placement}
    (h : s.Parted false [] front [last] [] (List.replicate (n + 1) Lexeme.lineFeed)
      [Lexeme.lineFeed])
    (hplaces : front.map (s.timeline.sight true) =
      sights true [] (List.replicate (n + 1) Lexeme.lineFeed))
    (hp : s.timeline.live? last.id = some p) (hline : p.endPos.line ≤ n + 2) :
    ((s.exchangeShift 0 front.length ['l', 'e', 't']).move p).endPos.line ≤ 1 := by
  have haffects : (s.exchangeShift 0 front.length ['l', 'e', 't']).affects p.start := by
    have hstop := h.endOf.offset
    have hstart := (start_of_sight (List.cons.inj h.third).1).offset
    rw [Timeline.location, Timeline.placement_of_live hp] at hstart
    exact decide_eq_true (Nat.le_of_eq (hstop.trans hstart.symm))
  have hle := Shift.line_move_le_add _ haffects
  rw [lineOffset_word h.tokens hplaces] at hle
  omega

theorem splice_feeds {n : Nat} (hn : n + 2 ≤ maxCoordinate) (text : Text) :
    Text.splice 0 (runEnd 0 (n + 1)) text (List.replicate (n + 2) '\n') = text ++ ['\n'] := by
  have hend : runEnd 0 (n + 1) = n + 1 := by
    unfold maxCoordinate at hn
    unfold runEnd
    omega
  have hsplice := Text.splice_append [] (List.replicate (n + 1) '\n') ['\n'] text
  rw [Text.size_nil, List.nil_append, Text.size_feeds, ← List.replicate_succ'] at hsplice
  rw [hend, hsplice]
  rfl

theorem Crowded.edit_word {n : Nat} {front : List Token} {last : Token}
    (h : s.Crowded (n + 1) front last) (hn : n + 2 = maxCoordinate) :
    ∃ m s', s.edit 0 (n + 1) ['l', 'e', 't'] = .ok m s' ∧ s'.HeldBack last := by
  have hlexemes : Lexeme.all s.source =
      List.replicate (n + 1) Lexeme.lineFeed ++ [Lexeme.lineFeed] := by
    rw [h.source, Lexeme.all_feeds, List.replicate_succ']
  have hsize : Text.size s.source ≤ maxCoordinate := by
    rw [h.source, Text.size_feeds]
    exact Nat.le_of_eq hn
  have hfront : front.length = (List.replicate (n + 1) Lexeme.lineFeed).length := by
    have hlength := congrArg List.length h.places
    rwa [List.length_map, Lexeme.length_sights] at hlength
  have hready : s.prepared = { s with reporter := s.reporter.emptySink } := by
    rw [prepared, readAllMuted_of_complete h.shows.2]
  have htimeline : s.prepared.timeline = s.timeline := by rw [hready]
  have htokens : s.prepared.tokens.toList = front ++ [last] := by
    rw [hready]
    exact h.tokens
  have hplaces := htimeline.symm ▸ h.places
  have hsplice : Text.splice 0 (runEnd 0 (n + 1)) ['l', 'e', 't'] s.source =
      ['l', 'e', 't', '\n'] := by
    rw [h.source]
    exact splice_feeds (Nat.le_of_eq hn) ['l', 'e', 't']
  obtain ⟨hparted, m, hedit⟩ := h.shows.1.edit_front hlexemes htokens hfront (by simp [htokens])
    ['l', 'e', 't'] hsize (by decide)
  obtain ⟨t, htokens', -, hmoved⟩ := hparted.exchange_once (numbered_prepared h.numbered) 0
    front.length rfl rfl 'l' ['e', 't'] rfl rfl rfl
  obtain ⟨p, hp, hline⟩ := h.held
  have hlive := hmoved last (List.mem_append_right _ List.mem_cons_self)
  rw [htimeline, hp, Option.map_some] at hlive
  rw [Lexeme.joined_feeds, Text.size_feeds] at hedit
  obtain ⟨hall, hsource⟩ := shows_edit h.shows.1 h.numbered hsize
    (Text.fits_of_size (hsplice.symm ▸ by decide)) hedit
  refine ⟨m, _, hedit, (follows_edit h.numbered hedit).numbered, hall, hsource.trans hsplice, ?_, ?_⟩
  · have hlast := congrArg List.getLast? htokens'
    rwa [Array.getLast?_toList] at hlast
  · rw [location, Timeline.location, Timeline.placement_of_live hlive]
    exact hparted.line_behind_word hplaces (htimeline.symm ▸ hp) (hn ▸ hline)

theorem HeldBack.parts {last : Token} (h : s.HeldBack last) :
    ∃ i, s.tokens.toList = [⟨i, .letWord, ['l', 'e', 't']⟩, last] ∧
      last.kind = .newline ∧ last.text = ['\n'] ∧ (s.location last).span = ⟨3, 4⟩ := by
  have hlexemes : Lexeme.all s.source =
      [{ kind := .letWord, first := 'l', rest := ['e', 't'] }, Lexeme.lineFeed] := by
    rw [h.source]
    decide
  have hsights := h.shows.1.sights
  rw [hlexemes] at hsights
  obtain ⟨t, rest, htokens, ht, hrest⟩ := List.map_eq_cons_iff.mp hsights
  obtain ⟨u, rest, rfl, hu, hnil⟩ := List.map_eq_cons_iff.mp hrest
  have hback := h.tokens
  rw [List.map_eq_nil_iff.mp hnil] at htokens
  rw [← Array.getLast?_toList, htokens] at hback
  obtain rfl : u = last := Option.some.inj hback
  have hkind : t.kind = .letWord := congrArg Prod.fst ht
  have htext : t.text = ['l', 'e', 't'] := congrArg (fun x => x.2.1) ht
  refine ⟨t.id, ?_, congrArg Prod.fst hu, congrArg (fun x => x.2.1) hu, ?_⟩
  · rw [htokens, ← hkind, ← htext]
  · exact Location.span_of_seen (location_of_sight hu)

/-- Two edits that come to such a stream, from a text that has a number for each of its lines. -/
theorem exists_heldBack {n : Nat} (hn : n + 1 = maxCoordinate) :
    ∃ m s m' s' last, (ofSource (List.replicate n '\n')).edit 0 0 ['\n'] = .ok m s ∧
      s.edit 0 n ['l', 'e', 't'] = .ok m' s' ∧ s'.HeldBack last := by
  obtain ⟨n, rfl⟩ : ∃ k, n = k + 1 := ⟨n - 1, by unfold maxCoordinate at hn; omega⟩
  obtain ⟨m, s, front, last, hfeed, hcrowded⟩ :=
    edit_feed (fun lines => shows_ofSource lines (List.replicate (n + 1) '\n'))
      (numbered_ofSource _) rfl (Nat.le_of_eq hn)
  obtain ⟨m', s', hword, hheld⟩ := hcrowded.edit_word hn
  exact ⟨m, s, m', s', last, hfeed, hword, hheld⟩

end TokenStream
end Reparse
