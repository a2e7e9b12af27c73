import Reparse.Proofs.Lexeme.Layout
import Reparse.Proofs.TokenStream.Exchange

/-!
# Widening an edit

The tokens that an edit cuts again reach from a layout token before the edited bytes, or from the
start of the source, to the end of the last token that starts before the end of these bytes. So the
exchange does what the edit asks for, and the tokens before it are the ones of the new source too.
-/

namespace Reparse

open Lexeme (Cuts joined sights)

namespace Lexeme

theorem size_joined_take_le (ls : List Lexeme) {i j : Nat} (h : i ≤ j) :
    Text.size (joined (ls.take i)) ≤ Text.size (joined (ls.take j)) := by
  obtain ⟨m, hm⟩ := List.take_prefix_take_left (l := ls) h
  rw [← hm, joined_append, Text.size_append]
  exact Nat.le_add_right ..

theorem size_joined_take_lt (ls : List Lexeme) {i j : Nat} (h : i < j) (hi : i < ls.length) :
    Text.size (joined (ls.take i)) < Text.size (joined (ls.take j)) := by
  have hstep : ls.take (i + 1) = ls.take i ++ [ls[i]] := List.take_succ_eq_append_getElem hi
  have hle := size_joined_take_le ls (Nat.succ_le_of_lt h)
  have hpos := (ls[i]).size_pos
  rw [Nat.succ_eq_add_one, hstep, joined_append, Text.size_append, joined_cons, joined_nil,
    List.append_nil] at hle
  rw [size] at hpos
  omega

end Lexeme

namespace TokenStream

variable {lines : Bool} {s : TokenStream} {ls : List Lexeme}

theorem takeWhile_starts {t : Timeline} {ts : List Token} {before : Text} (p : Nat → Bool)
    (h : ts.map (t.sight lines) = sights lines before ls) :
    ∃ as bs, ls = as ++ bs ∧
      (ts.takeWhile fun token => p (t.location token).span.start).length = as.length ∧
      (∀ pre l post, as = pre ++ l :: post → p (Text.size (before ++ joined pre)) = true) ∧
      ∀ b bs', bs = b :: bs' → p (Text.size (before ++ joined as)) = false := by
  induction ls generalizing ts before with
  | nil =>
    rw [List.map_eq_nil_iff.mp h]
    exact ⟨[], [], rfl, rfl, fun _ _ _ hnil => absurd hnil (by simp), fun _ _ hnil => nomatch hnil⟩
  | cons l ls ih =>
    obtain ⟨token, rest, rfl, htoken, hrest⟩ := List.map_eq_cons_iff.mp h
    have hstart := (start_of_sight htoken).offset
    cases hp : p (Text.size before) with
    | false =>
      refine ⟨[], l :: ls, rfl, ?_, fun _ _ _ hnil => absurd hnil (by simp), fun b bs' _ => ?_⟩
      · rw [List.takeWhile_cons, hstart, hp]
        rfl
      · rw [Lexeme.joined_nil, List.append_nil, hp]
    | true =>
      obtain ⟨as, bs, rfl, hlength, has, hbs⟩ := ih hrest
      refine ⟨l :: as, bs, rfl, ?_, ?_, ?_⟩
      · rw [List.takeWhile_cons, hstart, hp, if_pos rfl, List.length_cons, hlength, List.length_cons]
      · intro pre m post hpre
        cases pre with
        | nil => rwa [Lexeme.joined_nil, List.append_nil]
        | cons l' pre =>
          obtain ⟨rfl, htail⟩ := List.cons.inj hpre
          have hp' := has pre m post htail
          rwa [List.append_assoc] at hp'
      · intro b bs' hb
        have hp' := hbs b bs' hb
        rwa [List.append_assoc] at hp'

theorem Lays.le_size_countStarts (h : s.Lays lines ls) {stop : Nat}
    (hstop : stop ≤ Text.size (joined ls)) :
    stop ≤ Text.size (joined (ls.take (s.countStarts (· < stop)))) := by
  obtain ⟨as, bs, rfl, hlength, -, hbs⟩ := takeWhile_starts (fun n => decide (n < stop)) h.sights
  have hcount : s.countStarts (· < stop) = as.length := hlength
  rw [hcount, List.take_left]
  cases bs with
  | nil => rwa [List.append_nil] at hstop
  | cons b bs => exact Nat.not_lt.mp (of_decide_eq_false (hbs b bs rfl))

theorem Lays.size_countStarts_le (h : s.Lays lines ls) (start : Nat) :
    Text.size (joined (ls.take (s.countStarts (· ≤ start) - 1))) ≤ start := by
  obtain ⟨as, bs, rfl, hlength, has, -⟩ := takeWhile_starts (fun n => decide (n ≤ start)) h.sights
  have hcount : s.countStarts (· ≤ start) = as.length := hlength
  rw [hcount]
  rcases List.eq_nil_or_concat as with rfl | ⟨front, l, rfl⟩
  · exact Nat.zero_le _
  · have hle := of_decide_eq_true (has front l [] List.concat_eq_append)
    rw [List.concat_eq_append, List.length_append, List.length_singleton, Nat.add_sub_cancel,
      List.append_assoc, List.take_left]
    exact hle

theorem layoutBefore_spec (s : TokenStream) (n : Nat) :
    s.layoutBefore n = 0 ∨ ∃ m, m < n ∧ s.layoutBefore n = m + 1 ∧
      ∃ t, s.tokens[m]? = some t ∧ t.kind.isLayout = true := by
  induction n with
  | zero => exact .inl rfl
  | succ n ih =>
    have hbefore : s.layoutBefore n = 0 ∨ ∃ m, m < n + 1 ∧ s.layoutBefore n = m + 1 ∧
        ∃ t, s.tokens[m]? = some t ∧ t.kind.isLayout = true := by
      rcases ih with hzero | ⟨m, hm, hbefore, ht⟩
      · exact .inl hzero
      · exact .inr ⟨m, Nat.lt_succ_of_lt hm, hbefore, ht⟩
    rw [layoutBefore]
    cases ht : s.tokens[n]? with
    | none => exact hbefore
    | some t =>
      cases hlayout : t.kind.isLayout with
      | false =>
        rw [Option.any_some, hlayout]
        exact hbefore
      | true =>
        rw [Option.any_some, hlayout]
        exact .inr ⟨n, Nat.lt_succ_self n, rfl, t, ht, hlayout⟩

theorem firstAffected_spec (s : TokenStream) (start : Nat) :
    s.firstAffected start = 0 ∨
      s.firstAffected start < s.countStarts (· ≤ start) - 1 ∧
        ∃ t, s.tokens[s.firstAffected start]? = some t ∧ t.kind.isLayout = true := by
  unfold firstAffected
  rcases layoutBefore_spec s (s.countStarts (· ≤ start) - 1) with hzero | ⟨m, hm, hbefore, ht⟩
  · rw [hzero]
    exact .inl rfl
  · rw [hbefore]
    exact .inr ⟨hm, ht⟩

/-- The tokens that an edit of the text `old` cuts again, and the texts `p` and `q` that they
have before and behind `old`. -/
structure Region (s : TokenStream) (before old behind : Text) (ts us vs : List Token)
    (as bs cs : List Lexeme) (p q : Text) : Prop where
  tokens : s.tokens.toList = ts ++ us ++ vs
  first : ts.length = as.length
  second : us.length = bs.length
  affected : s.affected (Text.size before) (Text.size (before ++ old)) = (ts.length, us.length)
  before_eq : before = joined as ++ p
  exchanged : joined bs = p ++ old ++ q
  behind_eq : behind = q ++ joined cs

structure Widened (s : TokenStream) (before old behind : Text) (ts us vs : List Token)
    (as bs cs : List Lexeme) (p q : Text) : Prop
    extends Region s before old behind ts us vs as bs cs p q where
  lexemes : Lexeme.all s.source = as ++ bs ++ cs
  stable : ∀ more, Cuts (joined as ++ (p ++ more)) as (p ++ more)

theorem countStarts_le_size (s : TokenStream) (p : Nat → Bool) :
    s.countStarts p ≤ s.tokens.size := by
  rw [countStarts, ← Array.length_toList]
  exact (List.takeWhile_prefix _).length_le

theorem Lays.firstAffected_le (h : s.Lays lines ls) {start stop : Nat} (hle : start ≤ stop)
    (hstop : stop ≤ Text.size (joined ls)) :
    Text.size (joined (ls.take (s.firstAffected start))) ≤ start ∧
      s.firstAffected start ≤ s.countStarts (· < stop) := by
  have hreach := h.le_size_countStarts hstop
  have hholds := h.size_countStarts_le start
  have hcount := s.countStarts_le_size (· ≤ start)
  have hlength := h.length
  rw [Array.length_toList] at hlength
  rcases firstAffected_spec s start with hzero | ⟨hlt, -⟩
  · rw [hzero]
    exact ⟨Nat.zero_le _, Nat.zero_le _⟩
  · have hsize := Lexeme.size_joined_take_le ls (Nat.le_of_lt hlt)
    refine ⟨Nat.le_trans hsize hholds, Nat.not_lt.mp fun hbehind => ?_⟩
    have hsmall := Lexeme.size_joined_take_lt ls (Nat.lt_trans hbehind hlt) (by omega)
    omega

theorem ShowsAll.stable (h : s.ShowsAll lines) {before p : Text} {as bs : List Lexeme}
    (hlexemes : Lexeme.all s.source = as ++ bs)
    (hfirst : s.firstAffected (Text.size before) = as.length)
    (hbefore : before = joined as ++ p) (hp : p <+: joined bs) (more : Text) :
    Cuts (joined as ++ (p ++ more)) as (p ++ more) := by
  have hholds := h.1.size_countStarts_le (Text.size before)
  have hspec := firstAffected_spec s (Text.size before)
  rw [hfirst] at hspec
  -- Either nothing stays in front, or the run begins with layout, the whole of which is in `p`.
  rcases hspec with hzero | ⟨hlt, t, ht, hlayout⟩
  · rw [List.length_eq_zero_iff.mp hzero]
    exact .nil _
  · have hwords := congrArg (fun l => l[as.length]?) h.1.words
    simp only [List.getElem?_map, Array.getElem?_toList, ht, Option.map_some, hlexemes,
      List.getElem?_append_right (Nat.le_refl _), Nat.sub_self] at hwords
    cases bs with
    | nil => cases hwords
    | cons l bs =>
      have hkind : t.kind = l.kind := congrArg Prod.fst (Option.some.inj hwords)
      rw [hkind] at hlayout
      have hcuts := Cuts.all s.source
      rw [hlexemes] at hcuts
      have hwhole := Lexeme.size_joined_take_le (Lexeme.all s.source) (Nat.succ_le_of_lt hlt)
      rw [hlexemes, List.append_cons, Nat.succ_eq_add_one, List.take_left' (by simp)] at hwhole
      have hsize : Text.size l.text ≤ Text.size p := by
        rw [hlexemes, List.append_cons] at hholds
        have hle := Nat.le_trans hwhole hholds
        rw [Lexeme.joined_append, Lexeme.joined_cons, Lexeme.joined_nil, List.append_nil, hbefore,
          Text.size_append, Text.size_append] at hle
        omega
      obtain ⟨rest, hrest⟩ := hp
      rw [Lexeme.joined_cons] at hrest
      obtain ⟨m, hm, -⟩ := Text.exists_between hrest.symm hsize
      rw [hm, List.append_assoc]
      exact hcuts.stable_of_layout hlayout (m ++ more)

theorem exists_thirds {α : Type} (l : List α) {i j : Nat} (hij : i ≤ j) (hj : j ≤ l.length) :
    ∃ a b c, l = a ++ b ++ c ∧ a.length = i ∧ b.length = j - i := by
  refine ⟨l.take i, (l.drop i).take (j - i), (l.drop i).drop (j - i), ?_, ?_, ?_⟩
  · rw [List.append_assoc, List.take_append_drop, List.take_append_drop]
  · rw [List.length_take]
    omega
  · rw [List.length_take, List.length_drop]
    omega

theorem Lays.region (h : s.Lays lines ls) {before old behind : Text}
    (hjoined : joined ls = before ++ old ++ behind) :
    ∃ ts us vs as bs cs p q, ls = as ++ bs ++ cs ∧
      s.Region before old behind ts us vs as bs cs p q := by
  have hle : Text.size before ≤ Text.size (before ++ old) := by
    rw [Text.size_append]
    exact Nat.le_add_right ..
  have hstop : Text.size (before ++ old) ≤ Text.size (joined ls) := by
    rw [hjoined, Text.size_append _ behind]
    exact Nat.le_add_right ..
  obtain ⟨hstart, hij⟩ := h.firstAffected_le hle hstop
  have hreach := h.le_size_countStarts hstop
  have hcount := s.countStarts_le_size (· < Text.size (before ++ old))
  have hlength := h.length
  rw [← Array.length_toList] at hcount
  -- The same two indices part the tokens and the lexemes.
  obtain ⟨ts, us, vs, htokens, hts, hus⟩ := exists_thirds _ hij hcount
  rw [hlength] at hcount
  obtain ⟨as, bs, cs, rfl, has, hbs⟩ := exists_thirds _ hij hcount
  have hfront : s.countStarts (· < Text.size (before ++ old)) = (as ++ bs).length := by
    rw [List.length_append, has, hbs]
    omega
  rw [hfront, List.take_left, Lexeme.joined_append] at hreach
  rw [← has, List.append_assoc, List.take_left] at hstart
  rw [Lexeme.joined_append, Lexeme.joined_append] at hjoined
  -- The run reaches around the edit, with `p` of it in front and `q` behind.
  obtain ⟨p, hp, -⟩ := Text.exists_between
    (by rw [← List.append_assoc, hjoined, List.append_assoc]) hstart
  obtain ⟨q, hq, hbehind⟩ := Text.exists_between hjoined.symm hreach
  have hexchanged : joined bs = p ++ old ++ q := by
    rw [hp, List.append_assoc, List.append_assoc] at hq
    rw [List.append_cancel_left hq, List.append_assoc]
  refine ⟨ts, us, vs, as, bs, cs, p, q, rfl, htokens, hts.trans has.symm, hus.trans hbs.symm, ?_, hp,
    hexchanged, hbehind⟩
  rw [affected, hts, hus]

theorem ShowsAll.widened (h : s.ShowsAll lines) {before old behind : Text}
    (hsource : s.source = before ++ old ++ behind) :
    ∃ ts us vs as bs cs p q, s.Widened before old behind ts us vs as bs cs p q := by
  obtain ⟨ts, us, vs, as, bs, cs, p, q, hlexemes, hregion⟩ :=
    h.1.region ((Lexeme.joined_all s.source).trans hsource)
  have hfirst : s.firstAffected (Text.size before) = as.length :=
    (congrArg Prod.fst hregion.affected).trans hregion.first
  refine ⟨ts, us, vs, as, bs, cs, p, q, hregion, hlexemes, ?_⟩
  refine h.stable (hlexemes.trans (List.append_assoc ..)) hfirst hregion.before_eq ?_
  rw [Lexeme.joined_append, hregion.exchanged, List.append_assoc, List.append_assoc]
  exact List.prefix_append ..

theorem ShowsAll.source_eq_nil (h : s.ShowsAll lines) (hempty : s.tokens.isEmpty = true) :
    s.source = [] := by
  have hlength := h.1.length
  have htokens : s.tokens = #[] := Array.isEmpty_iff.mp hempty
  rw [htokens] at hlength
  have hjoined := Lexeme.joined_all s.source
  rw [List.length_eq_zero_iff.mp hlength.symm] at hjoined
  exact hjoined.symm

theorem lays_start (source : Text) (hstep : s.timeline.InStep) (htokens : s.tokens = #[]) :
    Lays lines { s with source, point := .start source, reporter := s.reporter.clear } [] := by
  refine ⟨⟨rfl, fun _ => rfl⟩, ?_, ?_, hstep⟩
  · rw [htokens]
    rfl
  · rw [htokens]
    rfl

theorem shows_restart (source : Text) (hstep : s.timeline.InStep) (htokens : s.tokens = #[]) :
    (s.restart source).2.ShowsAll lines ∧ (s.restart source).2.source = source := by
  have hstart :
      Shows lines { s with source, point := .start source, reporter := s.reporter.clear } [] :=
    ⟨lays_start source hstep htokens, .nil _⟩
  exact hstart.readAll

theorem mutate_of_empty (hrest : s.point.rest = []) (hempty : s.tokens.isEmpty = true)
    (first count : Nat) (text : Text) : s.mutate first count text =
      restart { s with reporter := s.reporter.emptySink } text := by
  unfold mutate
  rw [readAllMuted_of_complete hrest]
  simp only [hempty, if_true]

theorem mutate_of_nonempty (hrest : s.point.rest = []) (hnonempty : s.tokens.isEmpty = false)
    {first count : Nat} (hcount : first + count ≤ s.tokens.size) (text : Text) :
    s.mutate first count text =
      exchange { s with reporter := s.reporter.emptySink } first count text := by
  unfold mutate
  rw [readAllMuted_of_complete hrest]
  simp only [hnonempty]
  rw [Nat.min_eq_left (by omega), Nat.min_eq_left (by omega)]
  rfl

theorem Region.size_eq {before old behind : Text} {ts us vs : List Token} {as bs cs : List Lexeme}
    {p q : Text} (h : s.Region before old behind ts us vs as bs cs p q) :
    s.tokens.size = ts.length + us.length + vs.length := by
  rw [← Array.length_toList, h.tokens]
  simp only [List.length_append]

theorem shows_mutate {before old behind inserted : Text} {ts us vs : List Token}
    {as bs cs : List Lexeme} {p q : Text} (h : s.ShowsAll lines) (hnumbered : s.Numbered)
    (hnonempty : s.tokens.isEmpty = false)
    (hwide : s.Widened before old behind ts us vs as bs cs p q)
    (hfits : Text.Fits lines (before ++ inserted ++ behind)) :
    (s.mutate ts.length us.length (p ++ inserted ++ q)).2.ShowsAll lines ∧
      (s.mutate ts.length us.length (p ++ inserted ++ q)).2.source =
        before ++ inserted ++ behind := by
  have hsilent : ShowsAll lines { s with reporter := s.reporter.emptySink } :=
    ⟨⟨h.1.toLays.congr rfl rfl rfl rfl, h.1.cuts⟩, h.2⟩
  have hsize := hwide.size_eq
  have hnew : joined as ++ (p ++ inserted ++ q) ++ joined cs = before ++ inserted ++ behind := by
    rw [hwide.before_eq, hwide.behind_eq]
    simp only [List.append_assoc]
  have hstable := hwide.stable (inserted ++ q ++ joined cs)
  rw [mutate_of_nonempty h.2 hnonempty (by omega), ← hnew]
  refine shows_exchange _ hsilent (hnumbered.congr rfl rfl) hwide.tokens hwide.lexemes hwide.first
    hwide.second ?_ (hnew ▸ hfits)
  simpa only [List.append_assoc] using hstable

theorem shows_mutate_empty (inserted : Text) (h : s.ShowsAll lines)
    (hempty : s.tokens.isEmpty = true) :
    (s.mutate 0 0 inserted).2.ShowsAll lines ∧ (s.mutate 0 0 inserted).2.source = inserted := by
  rw [mutate_of_empty h.2 hempty]
  exact shows_restart inserted h.1.inStep (Array.isEmpty_iff.mp hempty)

theorem Region.slices {before old behind : Text} {ts us vs : List Token} {as bs cs : List Lexeme}
    {p q : Text} (h : s.Region before old behind ts us vs as bs cs p q)
    (hparted : s.Parted lines ts us vs as bs cs) (hsource : s.source = before ++ old ++ behind) :
    Text.slice (s.startOf ts.length).1 (Text.size before) s.source = p ∧
      Text.slice (Text.size (before ++ old)) (s.endOf ts.length us.length).1 s.source = q := by
  have hreach : joined as ++ joined bs = before ++ old ++ q := by
    rw [h.exchanged, h.before_eq]
    simp only [List.append_assoc]
  refine ⟨?_, ?_⟩
  · rw [hparted.startOf.offset, hsource, h.before_eq, List.append_assoc]
    exact Text.slice_append ..
  · rw [hparted.endOf.offset, hreach, hsource, h.behind_eq, ← List.append_assoc]
    exact Text.slice_append ..

theorem checkEdit_ok {start count : Nat} {inserted : Text} {u : Unit}
    (h : s.checkEdit start count inserted = .ok u) :
    runEnd start count ≤ Text.size s.source ∧ Text.onBoundary start s.source = true ∧
      Text.onBoundary (runEnd start count) s.source = true ∧
      Text.size s.source - count + Text.size inserted ≤ maxCoordinate := by
  unfold checkEdit at h
  simp only [Bool.not_eq_true'] at h
  split at h
  · cases h
  next hstop =>
    split at h
    · cases h
    next hstart =>
      split at h
      · cases h
      next hboundary =>
        split at h
        · cases h
        next hnew =>
          rw [Bool.not_eq_false] at hstart hboundary
          exact ⟨Nat.not_lt.mp hstop, hstart, hboundary, Nat.not_lt.mp hnew⟩

theorem runEnd_eq {start count : Nat} (h : runEnd start count ≤ maxCoordinate) :
    runEnd start count = start + count := by
  unfold maxCoordinate at h
  unfold runEnd at h ⊢
  omega

theorem exists_edited {start count : Nat} {inserted : Text} {u : Unit}
    (h : s.checkEdit start count inserted = .ok u) (hsize : Text.size s.source ≤ maxCoordinate) :
    ∃ before old behind, s.source = before ++ old ++ behind ∧ Text.size before = start ∧
      Text.size (before ++ old) = runEnd start count ∧
      Text.size (before ++ inserted ++ behind) ≤ maxCoordinate := by
  obtain ⟨hstop, hstart, hboundary, hnew⟩ := checkEdit_ok h
  have hend := runEnd_eq (Nat.le_trans hstop hsize)
  obtain ⟨before, rest, hrest, hbefore⟩ := Text.exists_append_of_onBoundary hstart
  obtain ⟨front, behind, hfront, hsizeFront⟩ := Text.exists_append_of_onBoundary hboundary
  obtain ⟨old, rfl, -⟩ := Text.exists_between (hrest.symm.trans hfront) (by omega)
  refine ⟨before, old, behind, hfront, hbefore, hsizeFront, ?_⟩
  rw [hfront, Text.size_append, hsizeFront, hend] at hnew
  rw [Text.size_append, Text.size_append]
  omega

theorem Region.widenedMutation {before old behind : Text} {ts us vs : List Token}
    {as bs cs : List Lexeme} {p q : Text} (h : s.Region before old behind ts us vs as bs cs p q)
    (hparted : s.Parted lines ts us vs as bs cs) (hsource : s.source = before ++ old ++ behind)
    (hnonempty : s.tokens.isEmpty = false) (inserted : Text) :
    s.widenedMutation (Text.size before) (Text.size (before ++ old)) inserted =
      s.mutate ts.length us.length (p ++ inserted ++ q) := by
  obtain ⟨hp, hq⟩ := h.slices hparted hsource
  rw [TokenStream.widenedMutation, hnonempty, h.affected, widenedText, hp, hq]
  rfl

theorem shows_edit {start count : Nat} {inserted : Text} {m : Mutation} {s' : TokenStream}
    (h : s.Shows lines ls) (hnumbered : s.Numbered) (hsize : Text.size s.source ≤ maxCoordinate)
    (hfits : Text.Fits lines (Text.splice start (runEnd start count) inserted s.source))
    (hedit : s.edit start count inserted = .ok m s') :
    s'.ShowsAll lines ∧ s'.source = Text.splice start (runEnd start count) inserted s.source := by
  obtain ⟨hall, hsource⟩ := h.readAllMuted
  have hnumbered' := (follows_readAllMuted hnumbered).numbered
  obtain ⟨hcheck, hresult⟩ := checkEdit_of_edit hedit
  obtain ⟨before, old, behind, hparts, rfl, hstop, -⟩ := exists_edited hcheck hsize
  have hs' : s' = _ := congrArg Prod.snd hresult
  rw [← hstop, hparts, Text.splice_append] at hfits ⊢
  rw [← hstop] at hs'
  rw [hparts] at hsource
  generalize s.readAllMuted = r at hall hsource hnumbered' hs'
  cases hempty : r.tokens.isEmpty with
  | true =>
    -- Without tokens the source is empty, and what was inserted is all there is to read.
    have hnil := hall.source_eq_nil hempty
    rw [hsource, List.append_assoc, List.append_eq_nil_iff, List.append_eq_nil_iff] at hnil
    obtain ⟨rfl, rfl, rfl⟩ := hnil
    rw [widenedMutation, if_pos hempty] at hs'
    rw [hs', List.nil_append, List.append_nil]
    exact shows_mutate_empty inserted hall hempty
  | false =>
    obtain ⟨ts, us, vs, as, bs, cs, p, q, hwide⟩ := hall.widened hsource
    have hparted := hall.parted hwide.tokens hwide.lexemes hwide.first hwide.second
    rw [hwide.widenedMutation hparted hsource hempty] at hs'
    rw [hs']
    exact shows_mutate hall hnumbered' hempty hwide hfits

end TokenStream

end Reparse
